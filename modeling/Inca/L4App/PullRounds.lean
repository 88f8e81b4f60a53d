import Inca.Core.Gather
import Inca.L4App.KeyMachine

/-!
# Who is answered when

In every run of the server in synchronous, non-blocking mode, with any
scheduling and any compressor:

* `pull_flags`: on every thread and for every key `pull_cnt` is the size of
  `seen_sender` and below `NumWorkers`, both are zero while `is_push_finished`
  is false (`Counting`), and a worker's `j`-th pull is answered at most once,
  never before the `j`-th `ALL_RECV` of the key was executed, and does not
  wait once it was (`Serving`). Rounds count from 0.

`Rounds` relates the flags of a key to the hidden round of each worker: `R`
`ALL_RECV` messages were executed and `Q` sent. While `is_push_finished`
holds, `seen_sender` are the workers whose `R` pulls are answered, and the
others lack the last; while it does not hold, all have their `R` answers. A
waiting pull is always one for round `R`, which is still to come.
-/
namespace Inca.L4.PullRounds
open Inca.L2 Inca.L4.Server Inca.L4.KeyMachine
open PriorityQueue (Reorder)

variable {E σ : Type} {n : Nat}

/-! ## Responses reach the workers -/

section Receive
variable {registers : Bool}

theorem receiveAll_allRecv (r : KeyRun E n) (resps : List (Response E (Fin n))) :
    (r.receiveAll registers resps).allRecv = r.allRecv := by
  induction resps generalizing r with
  | nil => rfl
  | cons resp resps ih => exact (ih _).trans (by cases resp <;> rfl)

theorem receiveAll_log (r : KeyRun E n) (resps : List (Response E (Fin n))) :
    (r.receiveAll registers resps).log = r.log ++ resps := by
  induction resps generalizing r with
  | nil => simp [KeyRun.receiveAll]
  | cons resp resps ih =>
    refine (ih _).trans ?_
    cases resp <;> simp [KeyRun.receive]

/-- What acks and responses keep of a phase, all of them keep of all. -/
theorem receiveAll_forall {P : Phase → Prop} (hpush : ∀ p, P p → P (p.onPush registers))
    (hpull : ∀ p, P p → P p.onPull) (r : KeyRun E n) (resps : List (Response E (Fin n)))
    (h : ∀ w, P (r.phase w)) : ∀ w, P ((r.receiveAll registers resps).phase w) := by
  induction resps generalizing r with
  | nil => exact h
  | cons resp resps ih =>
    refine ih _ fun w => ?_
    cases resp with
    | push k req =>
      by_cases hw : w = req.sender
      · subst hw; simpa [KeyRun.receive] using hpush _ (h _)
      · simpa [KeyRun.receive, hw] using h w
    | pull k req len vals =>
      by_cases hw : w = req.sender
      · subst hw; simpa [KeyRun.receive] using hpull _ (h _)
      · simpa [KeyRun.receive, hw] using h w

/-- Responses to different workers advance each of them once. -/
theorem receiveAll_phase {f : KVMeta (Fin n) → Response E (Fin n)} {g : Phase → Phase}
    (hf : ∀ (r : KeyRun E n) req, (r.receive registers (f req)).phase =
      Function.update r.phase req.sender (g (r.phase req.sender)))
    (r : KeyRun E n) (reqs : List (KVMeta (Fin n))) (hnd : (reqs.map KVMeta.sender).Nodup) (w : Fin n) :
    (r.receiveAll registers (reqs.map f)).phase w =
      if w ∈ reqs.map KVMeta.sender then g (r.phase w) else r.phase w := by
  induction reqs generalizing r with
  | nil => rfl
  | cons req reqs ih =>
    rw [List.map_cons, List.nodup_cons] at hnd
    have h := ih (r.receive registers (f req)) hnd.2
    rw [hf] at h
    refine h.trans ?_
    by_cases hw : w = req.sender
    · subst hw
      rw [if_neg hnd.1, Function.update_self, if_pos (by simp)]
    · simp [hw]

theorem receiveAll_push (k : Nat) (r : KeyRun E n) (reqs : List (KVMeta (Fin n)))
    (hnd : (reqs.map KVMeta.sender).Nodup) (w : Fin n) :
    (r.receiveAll registers (reqs.map (.push k))).phase w =
      if w ∈ reqs.map KVMeta.sender then (r.phase w).onPush registers else r.phase w :=
  receiveAll_phase (fun _ _ => rfl) r reqs hnd w

theorem receiveAll_pull (k len : Nat) (vals : Nat → E) (r : KeyRun E n) (reqs : List (KVMeta (Fin n)))
    (hnd : (reqs.map KVMeta.sender).Nodup) (w : Fin n) :
    (r.receiveAll registers (reqs.map fun req => .pull k req len vals)).phase w =
      if w ∈ reqs.map KVMeta.sender then (r.phase w).onPull else r.phase w :=
  receiveAll_phase (fun _ _ => rfl) r reqs hnd w

end Receive

/-! ## The loop over the waiting pulls -/

/-- The flags after all of `reqs` were counted. -/
def seeAll (f : Flags (Fin n)) (reqs : List (KVMeta (Fin n))) : Flags (Fin n) :=
  { f with pullCnt := f.pullCnt + reqs.length
           seenSender := f.seenSender ∪ (reqs.map KVMeta.sender).toFinset }

/-- Requests of different unseen senders are all answered. -/
theorem answerPulls_all (f : Flags (Fin n)) (reqs : List (KVMeta (Fin n)))
    (hnd : (reqs.map KVMeta.sender).Nodup) (hnew : ∀ req ∈ reqs, req.sender ∉ f.seenSender)
    (hroom : f.pullCnt < n) (hle : f.pullCnt + reqs.length ≤ n) :
    answerPulls n f reqs =
      (if f.pullCnt + reqs.length = n then (seeAll f reqs).reset else seeAll f reqs, [], reqs) := by
  induction reqs generalizing f with
  | nil => simp [answerPulls, seeAll, hroom.ne]
  | cons req reqs ih =>
    simp only [List.map_cons, List.nodup_cons, List.mem_map, not_exists, not_and] at hnd
    simp only [List.length_cons] at hle ⊢
    have hcnt : (f.see req.sender).pullCnt + reqs.length = f.pullCnt + (reqs.length + 1) := by
      simp only [Flags.see]; omega
    have hall : seeAll (f.see req.sender) reqs = seeAll f (req :: reqs) := by
      simp only [seeAll, hcnt, List.length_cons]
      simp [Flags.see, Finset.insert_union]
    rw [answerPulls, if_pos (hnew req (by simp))]
    by_cases hlast : (f.see req.sender).pullCnt = n
    · have hnil : reqs = [] := by
        rw [← List.length_eq_zero_iff]
        simp only [Flags.see] at hlast
        omega
      subst hnil
      simp only [Flags.see] at hlast
      simp [Flags.see, hlast, seeAll, Flags.reset]
    · have h := ih (f.see req.sender) hnd.2 (fun m hm => ?_) ?_ ?_
      · simp only [hlast, if_false, h, hall, hcnt]
      · simp only [Flags.see, Finset.mem_insert, not_or]
        exact ⟨fun e => hnd.1 m hm e, hnew m (by simp [hm])⟩
      · simp only [Flags.see] at hlast ⊢; omega
      · simp only [Flags.see]; omega

/-! ## Rounds of one key -/

/-- As many different workers as there are. -/
theorem all_mem {ws : List (Fin n)} (hnd : ws.Nodup) (hlen : ws.length = n) (w : Fin n) : w ∈ ws :=
  (mem_all_iff hnd).mpr (by rw [Fintype.card_fin, hlen]) w

/-- A move of `w` that leaves `g` as it is leaves it for all. -/
theorem update_same {β : Sort*} {phase : Fin n → Phase} {w : Fin n} {p : Phase} (g : Phase → β)
    (h : g p = g (phase w)) (v : Fin n) : g (Function.update phase w p v) = g (phase v) := by
  rw [Function.apply_update (fun _ => g), h, Function.update_eq_self]

theorem update_forall {P : Phase → Prop} {phase : Fin n → Phase} {w : Fin n} {p : Phase} (h : ∀ v, P (phase v))
    (hp : P p) : ∀ v, P (Function.update phase w p v) :=
  (Function.forall_update_iff phase fun _ => P).mpr ⟨hp, fun v _ => h v⟩

/-- Flags that count who has its answer to the last round: with the last answer they are reset. -/
theorem off_on_of_counted {phase : Fin n → Phase} {R : Nat} {f f' : Flags (Fin n)}
    (hf' : f' = if f.pullCnt = n then f.reset else f) (hfin : f.isPushFinished = true)
    (hcnt : f.pullCnt = f.seenSender.card)
    (hans : ∀ w, if w ∈ f.seenSender then (phase w).answered = R else (phase w).answered + 1 = R) :
    (f'.isPushFinished = false → f'.pullCnt = 0 ∧ f'.seenSender = ∅ ∧ ∀ w, (phase w).answered = R) ∧
    (f'.isPushFinished = true → f'.pullCnt = f'.seenSender.card ∧ f'.pullCnt < n ∧
      ∀ w, if w ∈ f'.seenSender then (phase w).answered = R else (phase w).answered + 1 = R) := by
  by_cases hlast : f.pullCnt = n
  · rw [if_pos hlast] at hf'
    subst hf'
    have huniv : f.seenSender = Finset.univ := by
      rw [← Finset.card_eq_iff_eq_univ, ← hcnt, hlast, Fintype.card_fin]
    refine ⟨fun _ => ⟨rfl, rfl, fun w => ?_⟩, fun hon => by simp [Flags.reset] at hon⟩
    have := hans w
    rwa [huniv, if_pos (Finset.mem_univ w)] at this
  · rw [if_neg hlast] at hf'
    subst hf'
    refine ⟨fun hoff => by simp [hfin] at hoff, fun _ => ⟨hcnt, ?_, hans⟩⟩
    have hle := Finset.card_le_univ f'.seenSender
    rw [Fintype.card_fin] at hle
    omega

/-- `R` rounds were executed and `Q` are complete; `senders` have pushed for the round after
those. -/
structure Rounds (phase : Fin n → Phase) (R Q : Nat) (senders : List (Fin n)) (f : Flags (Fin n)) : Prop where
  running : ∀ w, (phase w).Running
  le : R ≤ Q
  pushed : ∀ w, (phase w).pushed = if w ∈ senders then Q + 1 else Q
  nodup : senders.Nodup
  room : senders.length < n
  off : f.isPushFinished = false → f.pullCnt = 0 ∧ f.seenSender = ∅ ∧ ∀ w, (phase w).answered = R
  on : f.isPushFinished = true → f.pullCnt = f.seenSender.card ∧ f.pullCnt < n ∧
    ∀ w, if w ∈ f.seenSender then (phase w).answered = R else (phase w).answered + 1 = R
  waits : ∀ req ∈ f.qPullReqmeta, phase req.sender = .pullWait req.timestamp ∧ req.timestamp = R
  waiting : ∀ w j, phase w = .pullWait j → w ∈ f.qPullReqmeta.map KVMeta.sender
  once : (f.qPullReqmeta.map KVMeta.sender).Nodup

namespace Rounds
variable {phase : Fin n → Phase} {R Q : Nat} {senders : List (Fin n)} {f : Flags (Fin n)}

theorem answered_le (h : Rounds phase R Q senders f) (w : Fin n) : (phase w).answered ≤ R := by
  cases hf : f.isPushFinished with
  | false => exact ((h.off hf).2.2 w).le
  | true =>
    have := (h.on hf).2.2 w
    split at this <;> omega

/-- A worker about to push has all its answers, and no round is under way in the engine. -/
theorem at_push (h : Rounds phase R Q senders f) {w : Fin n} {j : Nat} (hw : phase w = .push j) :
    w ∉ senders ∧ j = R ∧ Q = R := by
  have ha := h.answered_le w
  have hp := h.pushed w
  have hle := h.le
  simp only [hw, Phase.answered, Phase.pushed] at ha hp
  by_cases hm : w ∈ senders
  · rw [if_pos hm] at hp; omega
  · rw [if_neg hm] at hp; exact ⟨hm, by omega, by omega⟩

/-- While a round is in the engine, nobody has pushed for the next and nobody lacks an answer. -/
theorem at_all (h : Rounds phase R Q senders f) (hn : 0 < n) (hRQ : R < Q) :
    f.isPushFinished = false ∧ Q = R + 1 ∧ senders = [] := by
  have hlow : ∀ w, Q ≤ (phase w).answered + 1 := fun w => by
    have := (phase w).pushed_le
    have hp := h.pushed w
    split at hp <;> omega
  have hQ : Q = R + 1 := by
    have := hlow ⟨0, hn⟩
    have := h.answered_le ⟨0, hn⟩
    omega
  refine ⟨?_, hQ, ?_⟩
  · cases hf : f.isPushFinished with
    | false => rfl
    | true =>
      obtain ⟨hcnt, hlt, hseen⟩ := h.on hf
      have hall : f.seenSender = Finset.univ := by
        rw [Finset.eq_univ_iff_forall]
        intro w
        by_contra hw
        have := hseen w
        rw [if_neg hw] at this
        have := hlow w
        omega
      rw [hcnt, hall, Finset.card_univ, Fintype.card_fin] at hlt
      omega
  · rw [List.eq_nil_iff_forall_not_mem]
    intro w hw
    have hp := h.pushed w
    rw [if_pos hw] at hp
    have := (phase w).pushed_le
    have := h.answered_le w
    omega

/-- A worker has pushed: its phase is another, its answers and what waits are the same. -/
theorem pushed_by (h : Rounds phase R Q senders f) {w : Fin n} {j Q' : Nat} {senders' : List (Fin n)}
    (hw : phase w = .push j) (hle : R ≤ Q') (hnd : senders'.Nodup) (hroom : senders'.length < n)
    (hp : ∀ v, (Function.update phase w (.pull j) v).pushed = if v ∈ senders' then Q' + 1 else Q') :
    Rounds (Function.update phase w (.pull j)) R Q' senders' f := by
  have hans : ∀ v, (Function.update phase w (.pull j) v).answered = (phase v).answered :=
    update_same Phase.answered (by simp [hw, Phase.answered])
  have hwait : ∀ v i, (Function.update phase w (.pull j) v = .pullWait i) = (phase v = .pullWait i) :=
    fun v i => update_same (· = .pullWait i) (by simp [hw]) v
  refine ⟨update_forall h.running trivial, hle, hp, hnd, hroom, ?_, ?_, ?_, ?_, h.once⟩
  · simpa only [hans] using h.off
  · simpa only [hans] using h.on
  · simpa only [hwait] using h.waits
  · simpa only [hwait] using h.waiting

theorem push (h : Rounds phase R Q senders f) {w : Fin n} {j : Nat} (hw : phase w = .push j)
    (hmore : senders.length + 1 < n) : Rounds (Function.update phase w (.pull j)) R Q (senders ++ [w]) f := by
  obtain ⟨hnew, rfl, rfl⟩ := h.at_push hw
  refine h.pushed_by hw h.le (by simpa using h.nodup.concat hnew) (by simpa using hmore) fun v => ?_
  by_cases hv : v = w
  · subst hv; simp [Phase.pushed]
  · simpa [hv] using h.pushed v

/-- The last push of a round completes it. -/
theorem push_last (h : Rounds phase R Q senders f) {w : Fin n} {j : Nat} (hw : phase w = .push j)
    (hlast : senders.length + 1 = n) : Rounds (Function.update phase w (.pull j)) R (Q + 1) [] f := by
  obtain ⟨hnew, rfl, rfl⟩ := h.at_push hw
  refine h.pushed_by hw (by omega) List.nodup_nil (by simp; omega) fun v => ?_
  have hall : v ∈ w :: senders := all_mem (List.nodup_cons.mpr ⟨hnew, h.nodup⟩) (by simpa using hlast) v
  by_cases hv : v = w
  · subst hv; simp [Phase.pushed]
  · have hm : v ∈ senders := (List.mem_cons.mp hall).resolve_left hv
    have := h.pushed v
    simpa [hv, hm] using this

/-- A pull that is answered at once is one for the last executed round. -/
theorem pull (h : Rounds phase R Q senders f) {w : Fin n} {j : Nat} (hw : phase w = .pull j)
    (hfin : f.isPushFinished = true) (hseen : w ∉ f.seenSender) :
    Rounds (Function.update phase w (.push (j + 1))) R Q senders
      (if (f.see w).pullCnt = n then (f.see w).reset else f.see w) := by
  obtain ⟨hcnt, hlt, hans⟩ := h.on hfin
  have hj : j + 1 = R := by
    have := hans w
    simpa [hseen, hw, Phase.answered] using this
  have hcard : (f.see w).pullCnt = (f.see w).seenSender.card := by
    simp only [Flags.see, Finset.card_insert_of_notMem hseen, hcnt]
  have hwait : ∀ v i, (Function.update phase w (.push (j + 1)) v = .pullWait i) = (phase v = .pullWait i) :=
    fun v i => update_same (· = .pullWait i) (by simp [hw]) v
  have hq : (if (f.see w).pullCnt = n then (f.see w).reset else f.see w).qPullReqmeta = f.qPullReqmeta := by
    split <;> rfl
  -- the workers seen now are those with all answers
  have hnow : ∀ v, if v ∈ (f.see w).seenSender then (Function.update phase w (.push (j + 1)) v).answered = R
      else (Function.update phase w (.push (j + 1)) v).answered + 1 = R := fun v => by
    by_cases hv : v = w
    · subst hv; simp [Flags.see, Phase.answered, hj]
    · simpa [Flags.see, hv] using hans v
  obtain ⟨hoff, hon⟩ := off_on_of_counted (f := f.see w) rfl hfin hcard hnow
  refine ⟨update_forall h.running trivial, h.le, fun v => ?_, h.nodup, h.room, hoff, hon, ?_, ?_, ?_⟩
  · rw [update_same Phase.pushed (by simp [hw, Phase.pushed])]
    exact h.pushed v
  · rw [hq]; simpa only [hwait] using h.waits
  · rw [hq]; simpa only [hwait] using h.waiting
  · rw [hq]; exact h.once

/-- A pull that has to wait is one for the next round. -/
theorem pullWait (h : Rounds phase R Q senders f) {w : Fin n} {j : Nat} (hw : phase w = .pull j)
    (hnot : ¬ (f.isPushFinished = true ∧ w ∉ f.seenSender)) :
    Rounds (Function.update phase w (.pullWait j)) R Q senders
      { f with qPullReqmeta := f.qPullReqmeta ++ [⟨w, j⟩] } := by
  have hj : j = R := by
    cases hf : f.isPushFinished with
    | false => simpa [hw, Phase.answered] using (h.off hf).2.2 w
    | true =>
      have hin : w ∈ f.seenSender := by simpa [hf] using hnot
      simpa [hin, hw, Phase.answered] using (h.on hf).2.2 w
  have hans : ∀ v, (Function.update phase w (.pullWait j) v).answered = (phase v).answered :=
    update_same Phase.answered (by simp [hw, Phase.answered])
  have hnew : w ∉ f.qPullReqmeta.map KVMeta.sender := by
    rw [List.mem_map]
    rintro ⟨req, hreq, rfl⟩
    have := (h.waits req hreq).1
    simp [hw] at this
  refine ⟨update_forall h.running trivial, h.le, fun v => ?_, h.nodup, h.room, ?_, ?_, ?_, ?_, ?_⟩
  · rw [update_same Phase.pushed (by simp [hw, Phase.pushed])]
    exact h.pushed v
  · simpa only [hans] using h.off
  · simpa only [hans] using h.on
  · intro req hreq
    rcases List.mem_append.mp hreq with hreq | hreq
    · have hne : req.sender ≠ w := fun e => hnew (List.mem_map.mpr ⟨req, hreq, e⟩)
      simpa [hne] using h.waits req hreq
    · rw [List.mem_singleton] at hreq
      subst hreq
      exact ⟨by simp, hj⟩
  · intro v i hv
    by_cases hvw : v = w
    · subst hvw; simp
    · rw [Function.update_of_ne hvw] at hv
      simp only [List.map_append, List.mem_append]
      exact .inl (h.waiting v i hv)
  · simpa using h.once.concat hnew

/-- **`ALL_RECV`.** The engine executes the next round: the pulls that wait for it are all
answered. -/
theorem all (h : Rounds phase R Q senders f) (hn : 0 < n) (hRQ : R < Q) {phase' : Fin n → Phase}
    (hphase : ∀ w, phase' w = if w ∈ f.qPullReqmeta.map KVMeta.sender then (phase w).onPull else phase w) :
    ∃ f', answerPulls n { f with isPushFinished := true } f.qPullReqmeta = (f', [], f.qPullReqmeta) ∧
      Rounds phase' (R + 1) Q senders { f' with qPullReqmeta := [] } := by
  obtain ⟨hoff, rfl, rfl⟩ := h.at_all hn hRQ
  obtain ⟨hcnt, hseen, hans⟩ := h.off hoff
  have hlen : f.qPullReqmeta.length ≤ n := by
    have := h.once.length_le_card
    simpa using this
  have hloop := answerPulls_all { f with isPushFinished := true } f.qPullReqmeta h.once (by simp [hseen])
    (by simpa [hcnt] using hn) (by simpa [hcnt] using hlen)
  refine ⟨_, hloop, ?_⟩
  -- who waited has one answer more, and nobody waits any longer
  have hw : ∀ w, w ∈ f.qPullReqmeta.map KVMeta.sender → phase w = .pullWait R := fun w hw => by
    obtain ⟨req, hreq, rfl⟩ := List.mem_map.mp hw
    obtain ⟨h1, h2⟩ := h.waits req hreq
    rw [h1, h2]
  have hans' : ∀ w, (phase' w).answered = if w ∈ f.qPullReqmeta.map KVMeta.sender then R + 1 else R := fun w => by
    rw [hphase]
    split
    · rename_i hm; rw [hw w hm]; rfl
    · exact hans w
  have hnone : ∀ w j, phase' w ≠ .pullWait j := fun w j hj => by
    rw [hphase] at hj
    split at hj
    · rename_i hm; rw [hw w hm] at hj; cases hj
    · rename_i hm; exact hm (h.waiting w j hj)
  have hcard : (seeAll { f with isPushFinished := true } f.qPullReqmeta).pullCnt =
      (seeAll { f with isPushFinished := true } f.qPullReqmeta).seenSender.card := by
    simp only [seeAll, hcnt, hseen, Nat.zero_add, Finset.empty_union]
    rw [List.toFinset_card_of_nodup h.once, List.length_map]
  have hnow : ∀ w, if w ∈ (seeAll { f with isPushFinished := true } f.qPullReqmeta).seenSender
      then (phase' w).answered = R + 1 else (phase' w).answered + 1 = R + 1 := fun w => by
    simp only [seeAll, hseen, Finset.empty_union, List.mem_toFinset, hans']
    split <;> simp_all
  obtain ⟨hoff', hon'⟩ := off_on_of_counted rfl rfl hcard hnow
  refine ⟨fun w => ?_, le_rfl, fun w => ?_, h.nodup, h.room, hoff', hon', by simp,
    fun w j hj => absurd hj (hnone w j), by simp⟩
  · rw [hphase]
    split
    · rename_i hm; rw [hw w hm]; trivial
    · exact h.running w
  · rw [hphase, ← h.pushed w]
    split
    · rename_i hm; rw [hw w hm]; rfl
    · rfl

end Rounds

/-! ## The life of a key -/

def senders (v : View E n σ) : List (Fin n) := v.key.updates.request.map KVMeta.sender

/-- The `ALL_RECV` messages in a queue. -/
def pending (msgs : List (Body E)) : Nat := msgs.countP fun b => b.ops = .allRecv

/-- The pulls that were answered. -/
def pulls (log : List (Response E (Fin n))) : List (KVMeta (Fin n)) :=
  log.filterMap fun
    | .push _ _ => none
    | .pull _ req _ _ => some req

/-- Before the first push of a round nothing has happened. -/
structure Untouched (v : View E n σ) : Prop where
  flags : v.flags = .empty
  msgs : v.msgs = []
  allRecv : v.run.allRecv = 0
  pulls : pulls v.run.log = []

theorem Untouched.reorder {v : View E n σ} (h : Untouched v) {b : Bool} {msgs : List (Body E)}
    (hm : Reorder b v.msgs msgs) : Untouched { v with msgs := msgs } := by
  have := hm.perm
  rw [h.msgs] at this
  exact ⟨h.flags, this.nil_eq.symm, h.allRecv, h.pulls⟩

/-- Some workers have sent a request (and are in phase `during`), the others not yet; it is
acked when all have sent it. -/
structure Gather (v : View E n σ) (before during : Phase) : Prop where
  phase : ∀ w, v.run.phase w = if w ∈ senders v then during else before
  nodup : (senders v).Nodup
  room : (senders v).length < n
  untouched : Untouched v

/-- Each answer was to a different pull, of a round the worker has behind it. -/
structure Answered (phase : Fin n → Phase) (reqs : List (KVMeta (Fin n))) : Prop where
  lt : ∀ req ∈ reqs, req.timestamp < (phase req.sender).answered
  once : reqs.Nodup

structure Running (v : View E n σ) : Prop where
  stored : v.key.stored.tensor.isSome
  rounds : Rounds v.run.phase v.run.allRecv (v.run.allRecv + pending v.msgs) (senders v) v.flags
  answered : Answered v.run.phase (pulls v.run.log)

theorem Answered.congr {phase phase' : Fin n → Phase} {reqs : List (KVMeta (Fin n))} (h : Answered phase reqs)
    (hsame : ∀ w, (phase' w).answered = (phase w).answered) : Answered phase' reqs :=
  ⟨fun req hreq => by rw [hsame]; exact h.lt req hreq, h.once⟩

/-- More answers, to workers that then have one more. -/
theorem Answered.add {phase phase' : Fin n → Phase} {old reqs : List (KVMeta (Fin n))} (h : Answered phase old)
    (hnd : (reqs.map KVMeta.sender).Nodup)
    (hreqs : ∀ req ∈ reqs, (phase req.sender).answered = req.timestamp ∧
      (phase' req.sender).answered = req.timestamp + 1)
    (hrest : ∀ w, w ∉ reqs.map KVMeta.sender → (phase' w).answered = (phase w).answered) :
    Answered phase' (old ++ reqs) := by
  have hmono : ∀ w, (phase w).answered ≤ (phase' w).answered := fun w => by
    by_cases hw : w ∈ reqs.map KVMeta.sender
    · obtain ⟨req, hreq, rfl⟩ := List.mem_map.mp hw
      have := hreqs req hreq
      omega
    · exact (hrest w hw).ge
  refine ⟨fun req hreq => ?_, List.nodup_append.mpr ⟨h.once, hnd.of_map _, fun a ha b hb e => ?_⟩⟩
  · rcases List.mem_append.mp hreq with hreq | hreq
    · exact (h.lt req hreq).trans_le (hmono _)
    · have := hreqs req hreq
      omega
  · subst e
    have := h.lt a ha
    have := hreqs a hb
    omega

/-- Init pushes, then perhaps registrations, then rounds. -/
inductive Inv (v : View E n σ) : Prop
  | init : v.key.stored.tensor = none → Gather v .init .initWait → Inv v
  | reg : v.key.stored.tensor.isSome → Gather v .reg .regWait → Inv v
  | run : Running v → Inv v

theorem Gather.gathering {v : View E n σ} {before during : Phase} (h : Gather v before during) :
    Gathering before during (senders v) v.run.phase := ⟨h.nodup, h.phase⟩

theorem Gather.phase_cases {v : View E n σ} {before during : Phase} (h : Gather v before during) (w : Fin n) :
    v.run.phase w = before ∨ v.run.phase w = during := h.gathering.phase_cases w

/-! What the phase of one worker tells about the key. -/

theorem Inv.of_init {v : View E n σ} (h : Inv v) {w : Fin n} (hw : v.run.phase w = .init) :
    v.key.stored.tensor = none ∧ Gather v .init .initWait := by
  cases h with
  | init hst hg => exact ⟨hst, hg⟩
  | reg _ hg => have := hg.phase_cases w; simp [hw] at this
  | run hr => have := hr.rounds.running w; rw [hw] at this; exact this.elim

theorem Inv.of_reg {v : View E n σ} (h : Inv v) {w : Fin n} (hw : v.run.phase w = .reg) :
    v.key.stored.tensor.isSome ∧ Gather v .reg .regWait := by
  cases h with
  | init _ hg => have := hg.phase_cases w; simp [hw] at this
  | reg hst hg => exact ⟨hst, hg⟩
  | run hr => have := hr.rounds.running w; rw [hw] at this; exact this.elim

theorem Inv.of_running {v : View E n σ} (h : Inv v) {w : Fin n} (hw : (v.run.phase w).Running) : Running v := by
  cases h with
  | init _ hg => rcases hg.phase_cases w with h | h <;> (rw [h] at hw; exact hw.elim)
  | reg _ hg => rcases hg.phase_cases w with h | h <;> (rw [h] at hw; exact hw.elim)
  | run hr => exact hr

theorem Inv.of_msg {v : View E n σ} (h : Inv v) {b : Bool} {m : Body E} {msgs : List (Body E)}
    (hm : Reorder b v.msgs (m :: msgs)) : Running v := by
  have hne : v.msgs ≠ [] := fun e => by
    have := hm.perm
    rw [e] at this
    simp at this
  cases h with
  | init _ hg => exact absurd hg.untouched.msgs hne
  | reg _ hg => exact absurd hg.untouched.msgs hne
  | run hr => exact hr

/-- All workers are at the start of a phase. -/
structure AllAt (v : View E n σ) (p : Phase) : Prop where
  phase : ∀ w, v.run.phase w = p
  request : v.key.updates.request = []
  untouched : Untouched v

theorem AllAt.gather {v : View E n σ} {before : Phase} (h : AllAt v before) (hn : 0 < n) (during : Phase) :
    Gather v before during := by
  have hs : senders v = [] := by rw [senders, h.request]; rfl
  exact ⟨fun w => by simp [hs, h.phase], by simp [hs], by simpa [hs] using hn, h.untouched⟩

theorem AllAt.running {v : View E n σ} (h : AllAt v (.push 0)) (hn : 0 < n)
    (hst : v.key.stored.tensor.isSome) : Running v := by
  have hs : senders v = [] := by rw [senders, h.request]; rfl
  refine ⟨hst, ?_, by simp [h.untouched.pulls], by simp [h.untouched.pulls]⟩
  rw [h.untouched.flags, h.untouched.msgs, h.untouched.allRecv, hs]
  refine ⟨fun w => ?_, le_rfl, fun w => ?_, .nil, hn, fun _ => ⟨rfl, rfl, fun w => ?_⟩, fun hf => ?_,
    by simp [Flags.empty], fun w j hw => ?_, by simp [Flags.empty]⟩
  · rw [h.phase]; trivial
  · rw [h.phase]; rfl
  · rw [h.phase]; rfl
  · simp [Flags.empty] at hf
  · rw [h.phase] at hw; cases hw

theorem AllAt.inv {v : View E n σ} {p : Phase} (h : AllAt v p) (hn : 0 < n)
    (hst : v.key.stored.tensor.isSome) (hp : p = .reg ∨ p = .push 0) : Inv v := by
  rcases hp with rfl | rfl
  · exact .reg hst (h.gather hn _)
  · exact .run (h.running hn hst)

/-- One more request is gathered: it stays with the others, or all are acked. -/
theorem Gather.collect {v : View E n σ} {before during : Phase} {w : Fin n} {k ts : Nat}
    {key key' : KeyState E (Fin n) σ} {resps : List (Response E (Fin n))} {cfg : Config}
    (h : Gather v before during) (hcfg : cfg.numWorkers = n) (hne : before ≠ during)
    (hw : v.run.phase w = before) (hc : Server.collect cfg k key ⟨w, ts⟩ = (key', resps))
    (hkey : key.updates.request = v.key.updates.request) (registers : Bool) (key₂ : KeyState E (Fin n) σ)
    (hkey₂ : key₂.updates.request = key'.updates.request) :
    (v.key.updates.request.length + 1 < n ∧ Gather { v with
      key := key₂, run := (v.run.wait w during).receiveAll registers resps } before during) ∨
    (¬ v.key.updates.request.length + 1 < n ∧ AllAt { v with
      key := key₂, run := (v.run.wait w during).receiveAll registers resps } (during.onPush registers)) := by
  -- with this request, the workers in `during` are the senders and `w`
  have hg : Gathering before during (senders v ++ [w]) (v.run.wait w during).phase :=
    h.gathering.arrive hne hw
  have hu := h.untouched
  simp only [Server.collect, hkey, hcfg, List.length_append, List.length_singleton] at hc
  by_cases hlt : v.key.updates.request.length + 1 < n
  · rw [if_pos hlt] at hc
    cases hc
    have hs : senders { v with key := key₂, run := (v.run.wait w during).receiveAll registers [] } =
        senders v ++ [w] := by simp [senders, hkey₂]
    refine .inl ⟨hlt, fun u => ?_, by rw [hs]; exact hg.nodup, ?_, hu.flags, hu.msgs, hu.allRecv, hu.pulls⟩
    · rw [hs]; exact hg.phase u
    · rw [hs]; simpa [senders] using hlt
  · rw [if_neg hlt] at hc
    cases hc
    have hmap : (v.key.updates.request ++ [(⟨w, ts⟩ : KVMeta (Fin n))]).map KVMeta.sender = senders v ++ [w] := by
      simp [senders]
    have hlen : (senders v ++ [w]).length = n := by
      have := h.room
      simp only [senders, List.length_map, List.length_append, List.length_singleton] at this ⊢
      omega
    refine .inr ⟨hlt, fun u => ?_, hkey₂, hu.flags, hu.msgs, (receiveAll_allRecv _ _).trans hu.allRecv, ?_⟩
    · simp only
      rw [receiveAll_push _ _ _ (by rw [hmap]; exact hg.nodup), hmap, if_pos (all_mem hg.nodup hlen u),
        hg.phase_of_full (by rw [hlen, Fintype.card_fin])]
    · simp only [receiveAll_log, pulls, List.filterMap_append, List.filterMap_map]
      have := hu.pulls
      simp only [pulls] at this
      simp [KeyRun.wait, this]

/-! ### The steps -/

theorem pending_append (a b : List (Body E)) : pending (a ++ b) = pending a + pending b := List.countP_append

theorem pending_reorder {b : Bool} {l l' : List (Body E)} (h : Reorder b l l') : pending l = pending l' :=
  h.perm.countP_eq _

theorem wait_receive_push (r : KeyRun E n) (registers : Bool) (w : Fin n) (j k : Nat) :
    ((r.wait w (.pushWait j)).receiveAll registers [.push k ⟨w, j⟩]).phase =
      Function.update r.phase w (.pull j) := by
  simp [KeyRun.receiveAll, KeyRun.receive, KeyRun.wait, Phase.onPush]

theorem wait_receive_pull (r : KeyRun E n) (registers : Bool) (w : Fin n) (j k len : Nat) (vals : Nat → E) :
    ((r.wait w (.pullWait j)).receiveAll registers [.pull k ⟨w, j⟩ len vals]).phase =
      Function.update r.phase w (.push (j + 1)) := by
  simp [KeyRun.receiveAll, KeyRun.receive, KeyRun.wait, Phase.onPull]

theorem pulls_append_push (log : List (Response E (Fin n))) (k : Nat) (req : KVMeta (Fin n)) :
    pulls (log ++ [.push k req]) = pulls log := by
  simp [pulls]

theorem pulls_append_pulls (log : List (Response E (Fin n))) (k len : Nat) (vals : Nat → E)
    (reqs : List (KVMeta (Fin n))) :
    pulls (log ++ reqs.map fun req => .pull k req len vals) = pulls log ++ reqs := by
  simp [pulls, List.filterMap_map]

section Steps
variable [Add E] [Zero E] {cfg : Config} {C : Compressor E σ} {inp : Inputs E n} {k : Nat} {v : View E n σ}

omit [Zero E] in
theorem Running.push {w : Fin n} {j len : Nat} {vals store : Nat → E} {key key' : KeyState E (Fin n) σ}
    {recv round msgs : List (Body E)} (h : Running v) (hcfg : cfg.numWorkers = n) (hsync : cfg.syncMode = true)
    (hblock : cfg.isEngineBlocking = false) (hw : v.run.phase w = .push j)
    (hrecv : handleRecv cfg v.key store len vals = some (key, recv))
    (hround : handleRound cfg key store ⟨w, j⟩ len = some (key', round))
    (hmsgs : Reorder cfg.enableSchedule (v.msgs ++ (recv ++ round)) msgs) (registers : Bool) :
    Running { v with key := key', msgs := msgs
                     run := (v.run.wait w (.pushWait j)).receiveAll registers [.push k ⟨w, j⟩] } := by
  have hpush := push_sync hsync hblock hrecv hround
  have hpend : pending msgs =
      pending v.msgs + if v.key.updates.request.length + 1 = n then 1 else 0 := by
    rw [← pending_reorder hmsgs, pending_append, hpush.msgs, hcfg]
    unfold pending
    split <;> split <;> rfl
  refine ⟨by rw [hpush.stored]; exact h.stored, ?_, ?_⟩
  · simp only [wait_receive_push, receiveAll_allRecv, KeyRun.wait_allRecv, senders, hpush.request, hpend, hcfg]
    by_cases hlast : v.key.updates.request.length + 1 = n
    · have hr := h.rounds.push_last hw (by simpa [senders] using hlast)
      simpa [hlast, Nat.add_assoc] using hr
    · have hroom := h.rounds.room
      have hr := h.rounds.push hw (by simp only [senders, List.length_map] at hroom ⊢; omega)
      simpa [hlast, senders] using hr
  · simp only [wait_receive_push, receiveAll_log, KeyRun.wait_log, pulls_append_push]
    exact h.answered.congr (update_same Phase.answered (by simp [hw, Phase.answered]))

omit [Add E] [Zero E] in
theorem Running.pull {w : Fin n} {j : Nat} {resp : Response E (Fin n)} (h : Running v) (hcfg : cfg.numWorkers = n)
    (hw : v.run.phase w = .pull j) (hfin : v.flags.isPushFinished = true) (hseen : w ∉ v.flags.seenSender)
    (hresp : sendPullResponse k v.key ⟨w, j⟩ = some resp) (registers : Bool) :
    Running { v with
      flags := if (v.flags.see w).pullCnt = cfg.numWorkers then (v.flags.see w).reset else v.flags.see w
      run := (v.run.wait w (.pullWait j)).receiveAll registers [resp] } := by
  obtain ⟨p, vals, -, -, rfl⟩ := sendPullResponse_some hresp
  refine ⟨h.stored, ?_, ?_⟩
  · simp only [wait_receive_pull, receiveAll_allRecv, KeyRun.wait_allRecv, hcfg]
    exact h.rounds.pull hw hfin hseen
  · have hlog : pulls (v.run.log ++ [.pull k ⟨w, j⟩ v.key.updates.merged.len vals]) = pulls v.run.log ++ [⟨w, j⟩] :=
      pulls_append_pulls v.run.log k _ vals [⟨w, j⟩]
    simp only [wait_receive_pull, receiveAll_log, KeyRun.wait_log, hlog]
    refine h.answered.add (by simp) (fun req hreq => ?_) fun u hu => ?_
    · rw [List.mem_singleton] at hreq
      subst hreq
      simp [hw, Phase.answered]
    · have hu : u ≠ w := by simpa using hu
      simp [hu]

omit [Add E] [Zero E] in
theorem Running.pullWait {w : Fin n} {j : Nat} (h : Running v) (hw : v.run.phase w = .pull j)
    (hnot : ¬ (v.flags.isPushFinished = true ∧ w ∉ v.flags.seenSender)) :
    Running { v with flags := { v.flags with qPullReqmeta := v.flags.qPullReqmeta ++ [⟨w, j⟩] }
                     run := v.run.wait w (.pullWait j) } := by
  exact ⟨h.stored, h.rounds.pullWait hw hnot,
    h.answered.congr (update_same Phase.answered (by simp [hw, Phase.answered]))⟩

omit [Zero E] in
theorem Running.engine {b : Body E} {msgs : List (Body E)} {key : KeyState E (Fin n) σ} {flags : Flags (Fin n)}
    {resps : List (Response E (Fin n))} (h : Running v) (hn : 0 < n) (hcfg : cfg.numWorkers = n)
    (hmsgs : Reorder cfg.enableSchedule v.msgs (b :: msgs))
    (hrun : runMessage cfg C k v.key v.flags b = some (key, flags, resps)) (registers : Bool) :
    Running ⟨key, flags, msgs, (v.run.executed b).receiveAll registers resps⟩ := by
  have hpend := pending_reorder hmsgs
  by_cases hb : b.ops = .allRecv
  · obtain ⟨hreq, hst, hsome, -, f₁, kept, answered, vals, hloop, rfl, rfl, -⟩ := runMessage_all hb hrun
    have hp : pending v.msgs = pending msgs + 1 := by rw [hpend]; simp [pending, hb]
    rw [hcfg] at hloop
    have hwait : ∀ w, ((v.run.executed b).receiveAll registers
        (v.flags.qPullReqmeta.map fun req => .pull k req key.updates.merged.len vals)).phase w =
        if w ∈ v.flags.qPullReqmeta.map KVMeta.sender then (v.run.phase w).onPull else v.run.phase w := fun w => by
      rw [receiveAll_pull _ _ _ _ _ h.rounds.once]
      simp [KeyRun.executed, hb]
    obtain ⟨f', hloop', hr⟩ := h.rounds.all hn (by omega) hwait
    rw [hloop'] at hloop
    cases hloop
    refine ⟨by rw [hst]; exact hsome, ?_, ?_⟩
    · have hall : ((v.run.executed b).receiveAll registers
          (v.flags.qPullReqmeta.map fun req => .pull k req key.updates.merged.len vals)).allRecv =
          v.run.allRecv + 1 := by
        rw [receiveAll_allRecv]; simp [KeyRun.executed, hb]
      have hQ : v.run.allRecv + pending v.msgs = v.run.allRecv + 1 + pending msgs := by omega
      rw [hQ] at hr
      simpa only [hall, senders, hreq] using hr
    · have hlog : (v.run.executed b).log = v.run.log := by simp [KeyRun.executed, hb]
      simp only [receiveAll_log, hlog, pulls_append_pulls]
      refine h.answered.add h.rounds.once (fun req hreq => ?_) fun u hu => ?_
      · rw [hwait, if_pos (List.mem_map.mpr ⟨req, hreq, rfl⟩), (h.rounds.waits req hreq).1]
        simp [Phase.answered, Phase.onPull]
      · rw [hwait, if_neg hu]
  · obtain ⟨rfl, rfl, hup, -, dst, src, -, hst, -⟩ := runMessage_data hb hrun
    have hp : pending v.msgs = pending msgs := by rw [hpend]; simp [pending, hb]
    have hrun' : (v.run.executed b).receiveAll registers [] = v.run := by
      simp [KeyRun.executed, hb, KeyRun.receiveAll]
    rw [hrun']
    refine ⟨by rw [hst]; rfl, ?_, h.answered⟩
    simpa only [senders, hup, hp] using h.rounds

omit [Add E] in
/-- An init push is gathered; the last one makes the store. -/
theorem Gather.init {w : Fin n} {dtype len : Nat} {vals : Nat → E} (h : Gather v .init .initWait) (hn : 0 < n)
    (hcfg : cfg.numWorkers = n) (hw : v.run.phase w = .init) (hst : v.key.stored.tensor = none) (registers : Bool) :
    Inv { v with
      key := (handleInit cfg k v.key ⟨w, 0⟩ dtype len vals).1
      run := (v.run.wait w .initWait).receiveAll registers (handleInit cfg k v.key ⟨w, 0⟩ dtype len vals).2 } := by
  obtain ⟨key, hreq, hst₀, -, heq⟩ := handleInit_eq cfg k v.key ⟨w, 0⟩ dtype len vals
  obtain ⟨⟨key', resps⟩, hc⟩ : ∃ p, Server.collect cfg k key ⟨w, 0⟩ = p := ⟨_, rfl⟩
  have hstc : (key', resps).1.stored = v.key.stored := by rw [← hc, collect_fst, hst₀]
  simp only [heq, hc, hcfg]
  by_cases hlt : v.key.updates.request.length + 1 < n
  · simp only [if_pos hlt]
    rcases h.collect hcfg (by simp) hw hc hreq registers key' rfl with ⟨-, hg⟩ | ⟨hge, -⟩
    · exact .init ((congrArg BytePSArray.tensor hstc).trans hst) hg
    · exact absurd hlt hge
  · simp only [if_neg hlt]
    rcases h.collect hcfg (by simp) hw hc hreq registers
      { key' with stored := ⟨some (copy (fun _ => 0) vals len), len, dtype⟩ } rfl with ⟨hl, -⟩ | ⟨-, hg⟩
    · exact absurd hl hlt
    · refine hg.inv hn rfl ?_
      cases registers
      · exact .inr rfl
      · exact .inl rfl

theorem inv_step {v' : View E n σ} {a : KAct E n} (hn : 0 < n) (hcfg : cfg.numWorkers = n)
    (hsync : cfg.syncMode = true) (hblock : cfg.isEngineBlocking = false) (h : Inv v)
    (hs : KStep cfg C inp k v a v') : Inv v' := by
  cases hs with
  | @register w req content p key resps hreq hreg =>
    obtain ⟨hw, rfl, rfl⟩ := request_register hreq
    obtain ⟨hst, hg⟩ := h.of_reg hw
    simp only [handleRegister, Option.bind_eq_bind, Option.bind_eq_some_iff, Option.some.injEq] at hreg
    obtain ⟨c, -, hc⟩ := hreg
    have hsome : (key, resps).1.stored.tensor.isSome := by rw [← hc, collect_fst]; exact hst
    rcases hg.collect hcfg (by simp) hw hc rfl (inp.registers k) key rfl with ⟨-, hg⟩ | ⟨-, hall⟩
    · exact .reg hsome hg
    · exact hall.inv hn hsome (.inr rfl)
  | @pushInit w req dtype len vals p hreq hst =>
    rcases request_push hreq with ⟨hw, rfl, -, rfl⟩ | ⟨j, hw, rfl, -, -, rfl⟩
    · exact (h.of_init hw).2.init hn hcfg hw hst _
    · have hr := h.of_running (w := w) (by rw [hw]; trivial)
      have := hr.stored
      simp [hst] at this
  | @push w req dtype len vals store p key key' recv round msgs hreq hst hrecv hround hmsgs =>
    rcases request_push hreq with ⟨hw, rfl, -, rfl⟩ | ⟨j, hw, rfl, -, -, rfl⟩
    · have hnone := (h.of_init hw).1
      simp [hst] at hnone
    · have hr := h.of_running (w := w) (by rw [hw]; trivial)
      exact .run (hr.push hcfg hsync hblock hw hrecv hround hmsgs _)
  | @pull w req p resp hreq hfin hseen hresp =>
    obtain ⟨j, hw, rfl, rfl⟩ := request_pull hreq
    have hr := h.of_running (w := w) (by rw [hw]; trivial)
    exact .run (hr.pull hcfg hw hfin hseen hresp _)
  | @pullWait w req p hreq hnot =>
    obtain ⟨j, hw, rfl, rfl⟩ := request_pull hreq
    have hr := h.of_running (w := w) (by rw [hw]; trivial)
    exact .run (hr.pullWait hw hnot)
  | engine hmsgs hrun => exact .run ((h.of_msg hmsgs).engine hn hcfg hmsgs hrun _)
  | other hmsgs =>
    cases h with
    | init hst hg => exact .init hst ⟨hg.phase, hg.nodup, hg.room, hg.untouched.reorder hmsgs⟩
    | reg hst hg => exact .reg hst ⟨hg.phase, hg.nodup, hg.room, hg.untouched.reorder hmsgs⟩
    | run hr =>
      exact .run ⟨hr.stored, by simpa only [pending_reorder hmsgs, senders] using hr.rounds, hr.answered⟩

omit [Add E] [Zero E] in
theorem inv_init (hn : 0 < n) : Inv (View.init : View E n σ) := by
  have hall : AllAt (View.init : View E n σ) .init := ⟨fun _ => rfl, rfl, rfl, rfl, rfl, rfl⟩
  exact .init rfl (hall.gather hn _)

theorem inv_reachable (hn : 0 < n) (hcfg : cfg.numWorkers = n) (hsync : cfg.syncMode = true)
    (hblock : cfg.isEngineBlocking = false) (h : (keySys cfg C inp k).Reachable v) : Inv v := by
  have hind : (keySys cfg C inp k).Inductive Inv :=
    ⟨fun v hv => hv ▸ inv_init hn, fun _ _ _ hI hs => inv_step hn hcfg hsync hblock hI hs⟩
  exact hind.reachable v h

end Steps

/-! ## The system -/

/-- The flags of a key on a thread count who was answered. -/
structure Counting (f : Flags (Fin n)) : Prop where
  count : f.pullCnt = f.seenSender.card
  room : f.pullCnt < n
  idle : f.isPushFinished = false → f.pullCnt = 0 ∧ f.seenSender = ∅

/-- Pulls of a key are answered once and in their round. -/
structure Serving (r : KeyRun E n) : Prop where
  once : ∀ w j, (pulls r.log).count ⟨w, j⟩ ≤ 1
  notBefore : ∀ w j, ⟨w, j⟩ ∈ pulls r.log → j < r.allRecv
  /-- a worker that still waits waits for a round that was not executed -/
  served : ∀ w j, r.phase w = .pullWait j → r.allRecv ≤ j

theorem counting_empty (hn : 0 < n) : Counting (.empty : Flags (Fin n)) := ⟨rfl, hn, fun _ => ⟨rfl, rfl⟩⟩

theorem Rounds.counting {phase : Fin n → Phase} {R Q : Nat} {senders : List (Fin n)} {f : Flags (Fin n)}
    (h : Rounds phase R Q senders f) (hn : 0 < n) : Counting f := by
  cases hf : f.isPushFinished with
  | false =>
    obtain ⟨hcnt, hseen, -⟩ := h.off hf
    exact ⟨by simp [hcnt, hseen], by omega, fun _ => ⟨hcnt, hseen⟩⟩
  | true =>
    obtain ⟨hcnt, hlt, -⟩ := h.on hf
    exact ⟨hcnt, hlt, fun hoff => by simp [hf] at hoff⟩

theorem Inv.counting {v : View E n σ} (h : Inv v) (hn : 0 < n) : Counting v.flags := by
  cases h with
  | init _ hg => rw [hg.untouched.flags]; exact counting_empty hn
  | reg _ hg => rw [hg.untouched.flags]; exact counting_empty hn
  | run hr => exact hr.rounds.counting hn

theorem Running.serving {v : View E n σ} (h : Running v) : Serving v.run where
  once := fun _ _ => List.nodup_iff_count_le_one.mp h.answered.once _
  notBefore := fun w _ hm => (h.answered.lt _ hm).trans_le (h.rounds.answered_le w)
  served := fun w j hw => by
    obtain ⟨req, hreq, rfl⟩ := List.mem_map.mp (h.rounds.waiting w j hw)
    obtain ⟨hphase, hts⟩ := h.rounds.waits req hreq
    rw [hw] at hphase
    cases hphase
    exact hts.ge

theorem Gather.serving {v : View E n σ} {before during : Phase} (h : Gather v before during)
    (hb : ∀ j, before ≠ .pullWait j) (hd : ∀ j, during ≠ .pullWait j) : Serving v.run where
  once := fun w j => by simp [h.untouched.pulls]
  notBefore := fun w j hm => by simp [h.untouched.pulls] at hm
  served := fun w j hw => by
    rcases h.phase_cases w with h | h
    · exact absurd (h.symm.trans hw) (hb j)
    · exact absurd (h.symm.trans hw) (hd j)

theorem Inv.serving {v : View E n σ} (h : Inv v) : Serving v.run := by
  cases h with
  | init _ hg => exact hg.serving (by simp) (by simp)
  | reg _ hg => exact hg.serving (by simp) (by simp)
  | run hr => exact hr.serving

/-- What the server keeps waiting is for a round that was not executed. -/
theorem Inv.parked {v : View E n σ} (h : Inv v) : ∀ req ∈ v.flags.qPullReqmeta, v.run.allRecv ≤ req.timestamp := by
  cases h with
  | init _ hg => simp [hg.untouched.flags, Flags.empty]
  | reg _ hg => simp [hg.untouched.flags, Flags.empty]
  | run hr => exact fun req hreq => (hr.rounds.waits req hreq).2.ge

/-- **Pulls.** With any number of workers, engine threads and keys, with or without scheduling
and compressors, in every run. -/
theorem pull_flags [Add E] [Zero E] (hn : 0 < n) (engineThreadNum : Nat) (enableSchedule : Bool)
    (C : Compressor E σ) (inp : Inputs E n) (S : Sys E n σ)
    (h : (sys (syncConfig n engineThreadNum enableSchedule) C inp).Reachable S) :
    (∀ i k, Counting (S.srv.flags i k)) ∧ (∀ k, Serving (S.run k)) ∧
    ∀ i k, ∀ req ∈ (S.srv.flags i k).qPullReqmeta, (S.run k).allRecv ≤ req.timestamp := by
  have hinv : ∀ k, Inv (view S k) := fun k => inv_reachable hn rfl rfl rfl (view_reachable rfl rfl h k)
  have hT := (threads_inductive rfl rfl).reachable S h
  refine ⟨fun i k => ?_, fun k => (hinv k).serving, fun i k => ?_⟩ <;> by_cases ht : S.srv.hashCache k = some i
  · rw [← (hT.own k).flags_eq (.inr ht)]
    exact (hinv k).counting hn
  · rw [(hT.own k i ht).1]
    exact counting_empty hn
  · rw [← (hT.own k).flags_eq (.inr ht)]
    exact (hinv k).parked
  · rw [(hT.own k i ht).1]
    simp [Flags.empty]

/-! ### A run -/

/-- A compressor that changes nothing. -/
def identity : Compressor Nat Unit where
  create := fun _ _ _ => some ()
  compress := fun _ vals len => ((), vals, len)
  decompress := fun _ vals _ => ((), vals)

/-- Two workers push one element: worker `w` pushes `w + 1` in round 0, `w + 11` in round 1, and
so on. -/
def oneElement (registers : Bool) : Inputs Nat 2 where
  dtype := fun _ => 0
  len := fun _ => 1
  initVals := fun _ _ _ => 0
  registers := fun _ => registers
  content := fun _ => []
  pushLen := fun _ _ _ => 1
  vals := fun w _ j _ => 10 * j + w + 1

/-- Both workers push and worker 0 pulls before the engine runs the round: it is answered by the
engine, and `seen_sender` has it alone. -/
theorem pull_flags_two_workers : ∃ S, (sys (syncConfig 2 1 true) identity (oneElement true)).Reachable S ∧
    (S.srv.flags 0 0).seenSender = {0} ∧ (S.run 0).phase 0 = .push 1 ∧
    (∀ i k, Counting (S.srv.flags i k)) ∧ (∀ k, Serving (S.run k)) ∧
    ∀ i k, ∀ req ∈ (S.srv.flags i k).qPullReqmeta, (S.run k).allRecv ≤ req.timestamp := by
  have hex : ∃ S, LTS.execute (LTS.guarded (step (syncConfig 2 1 true) identity (oneElement true)) fun _ _ _ => True)
      (.init (syncConfig 2 1 true)) [.req 0 0, .req 1 0, .req 0 0, .req 1 0, .req 0 0, .req 1 0, .req 0 0,
        .engine 0, .engine 0, .engine 0] = some S ∧
      (S.srv.flags 0 0).seenSender = {0} ∧ (S.run 0).phase 0 = .push 1 := ⟨_, rfl, rfl, rfl⟩
  obtain ⟨S, hS, hseen, hphase⟩ := hex
  have hr := LTS.Reachable.of_execute
    (.init (M := (sys (syncConfig 2 1 true) identity (oneElement true)).restrict fun _ _ _ => True) rfl) hS
  exact ⟨S, hr.of_restrict, hseen, hphase, pull_flags (by decide) 1 true identity (oneElement true) S hr.of_restrict⟩

end Inca.L4.PullRounds
