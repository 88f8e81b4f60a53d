import Mathlib.Data.Finset.Card
import Inca.L3Protocol.WorkerJobs

/-!
# Completion: every call is reported once, when its last job closes

The manager counts the finished parts of a call through three tables that
are indexed by wrapped counters: keys and call numbers modulo
`DPDK_KEY_TOTAL`. `completed` says what the counting is for: it reads the
log of closed jobs and lists the calls whose last job was closed, in order.

* `completion`: `finishKeys` is exactly the list of the completed calls'
  tensor keys, no call and no job is listed twice, and `slot_ready`
  describes the open jobs, in every run with fewer than `2 ^ 32` rounds per
  slot and at most `DPDK_KEY_TOTAL - MAX_AGTR_COUNT + 1` unfinished packets.
* `completion_counterexample`: `DPDK_KEY_TOTAL - 1` unfinished packets are
  too many: up to 2499 jobs younger than an open one can be closed already,
  so its key and its call number can be drawn again while it is open.
-/
namespace Inca.L3.Completion
open Inca.L1.DpdkPkt Inca.L2.DpdkManager Inca.L3.WorkerJobs

/-! ## What completion means -/

/-- The call (by number) that each job belongs to. -/
def owners (cfg : Cfg) (calls : List Call) : List Nat :=
  calls.zipIdx.flatMap fun x => List.replicate (parts cfg x.1) x.2

/-- Every job of call `c` is among `done`. -/
def AllClosed (own done : List Nat) (c : Nat) : Prop := ∀ i < own.length, own[i]? = some c → i ∈ done

instance (own done : List Nat) (c : Nat) : Decidable (AllClosed own done c) :=
  inferInstanceAs (Decidable (∀ i < own.length, own[i]? = some c → i ∈ done))

/-- The calls in the order in which their last job was closed. -/
def completed (own closed : List Nat) : List Nat :=
  (List.range closed.length).filterMap fun t =>
    (own[closed.getD t 0]?).filter fun c => AllClosed own (closed.take (t + 1)) c

def tensorKeyOf (calls : List Call) (c : Nat) : Nat := ((calls[c]?).map Call.tensorKey).getD 0

theorem owners_append (cfg : Cfg) (calls : List Call) (c : Call) :
    owners cfg (calls ++ [c]) = owners cfg calls ++ List.replicate (parts cfg c) calls.length := by
  simp [owners, List.zipIdx_append]

theorem completed_append (own closed : List Nat) (i : Nat) :
    completed own (closed ++ [i]) = completed own closed ++
      ((own[i]?).filter fun c => AllClosed own (closed ++ [i]) c).toList := by
  have htake : (closed ++ [i]).take (closed.length + 1) = closed ++ [i] := by
    rw [List.take_of_length_le]; simp
  simp only [completed, List.length_append, List.length_singleton, List.range_succ,
    List.filterMap_append, List.filterMap_cons, List.filterMap_nil]
  congr 1
  · refine List.filterMap_congr fun t ht => ?_
    have ht : t < closed.length := List.mem_range.mp ht
    rw [List.getD_eq_getElem?_getD, List.getD_eq_getElem?_getD, List.getElem?_append_left ht,
      List.take_append_of_le_length (by omega)]
  · simp only [List.getD_eq_getElem?_getD, List.getElem?_append_right (Nat.le_refl _), htake]
    simp only [Nat.sub_self, List.getElem?_cons_zero, Option.getD_some]
    cases (own[i]?).filter fun c => AllClosed own (closed ++ [i]) c <;> rfl

/-! ### Jobs and their calls -/

section Owners
variable {cfg : Cfg} {calls : List Call}

theorem owners_lt {i c : Nat} (h : (owners cfg calls)[i]? = some c) : c < calls.length := by
  have hm : c ∈ owners cfg calls := List.mem_of_getElem? h
  simp only [owners, List.mem_flatMap, List.mem_replicate] at hm
  obtain ⟨x, hx, -, rfl⟩ := hm
  have := List.mem_zipIdx' hx
  exact this.1

/-- Every call after that of job `i` has a job after job `i`. -/
theorem owners_window (hp : ∀ c ∈ calls, 0 < parts cfg c) {i c : Nat}
    (h : (owners cfg calls)[i]? = some c) : i + (calls.length - c) ≤ (owners cfg calls).length := by
  induction calls using List.reverseRecOn with
  | nil => simp [owners] at h
  | append_singleton calls x ih =>
    have hx := hp x (by simp)
    rw [owners_append] at h ⊢
    simp only [List.length_append, List.length_replicate, List.length_singleton]
    rcases Nat.lt_or_ge i (owners cfg calls).length with hi | hi
    · rw [List.getElem?_append_left hi] at h
      have := ih (fun c hc => hp c (by simp [hc])) h
      have := owners_lt h
      omega
    · rw [List.getElem?_append_right hi, List.getElem?_replicate] at h
      split at h
      · cases h; omega
      · cases h

theorem owners_count_new (c : Call) :
    (owners cfg (calls ++ [c])).count calls.length = parts cfg c := by
  have h0 : (owners cfg calls).count calls.length = 0 := by
    rw [List.count_eq_zero]
    intro hm
    obtain ⟨i, hi⟩ := List.mem_iff_getElem?.mp hm
    exact Nat.lt_irrefl _ (owners_lt hi)
  rw [owners_append, List.count_append, h0, List.count_replicate_self, Nat.zero_add]

theorem owners_count_old (c : Call) {k : Nat} (hk : k < calls.length) :
    (owners cfg (calls ++ [c])).count k = (owners cfg calls).count k := by
  rw [owners_append, List.count_append, List.count_replicate]
  simp [show calls.length ≠ k by omega]

/-- A call has `ceil (len / bound)` jobs. -/
theorem owners_count {k : Nat} {c : Call} (h : calls[k]? = some c) :
    (owners cfg calls).count k = parts cfg c := by
  induction calls using List.reverseRecOn with
  | nil => simp at h
  | append_singleton calls x ih =>
    rcases getElem?_snoc h with h | ⟨rfl, rfl⟩
    · rw [owners_count_old x (List.getElem?_eq_some_iff.mp h).1, ih h]
    · rw [owners_count_new]

end Owners

/-! ### Counting closed jobs -/

theorem count_eq_card (own : List Nat) (c : Nat) :
    own.count c = ((Finset.range own.length).filter fun i => own[i]? = some c).card := by
  induction own using List.reverseRecOn with
  | nil => simp
  | append_singleton own x ih =>
    have hpre : ((Finset.range own.length).filter fun i => (own ++ [x])[i]? = some c) =
        (Finset.range own.length).filter fun i => own[i]? = some c := by
      refine Finset.filter_congr fun i hi => ?_
      rw [List.getElem?_append_left (Finset.mem_range.mp hi)]
    rw [List.count_append, List.length_append, List.length_singleton, Finset.range_add_one,
      Finset.filter_insert, hpre, ih]
    by_cases hx : x = c
    · rw [if_pos (by simp [hx]), Finset.card_insert_of_notMem (by simp)]; simp [hx]
    · rw [if_neg (by simp [hx])]; simp [hx]

/-- The parts counter reaches the total exactly when all jobs of the call are closed. -/
theorem countP_eq_count_iff {own closed : List Nat} (hnd : closed.Nodup)
    (hlt : ∀ i ∈ closed, i < own.length) (c : Nat) :
    closed.countP (fun i => own[i]? = some c) = own.count c ↔ AllClosed own closed c := by
  have hcl : closed.countP (fun i => own[i]? = some c) =
      (closed.toFinset.filter fun i => own[i]? = some c).card := by
    rw [List.countP_eq_length_filter, ← List.toFinset_card_of_nodup (hnd.filter _), List.toFinset_filter]
    simp
  have hsub : (closed.toFinset.filter fun i => own[i]? = some c) ⊆
      (Finset.range own.length).filter fun i => own[i]? = some c := by
    intro i hi
    simp only [Finset.mem_filter, List.mem_toFinset, Finset.mem_range] at hi ⊢
    exact ⟨hlt i hi.1, hi.2⟩
  rw [hcl, count_eq_card]
  constructor
  · intro h i hi hc
    have heq := Finset.eq_of_subset_of_card_le hsub (Nat.le_of_eq h.symm)
    have : i ∈ closed.toFinset.filter fun i => own[i]? = some c := by
      rw [heq, Finset.mem_filter, Finset.mem_range]; exact ⟨hi, hc⟩
    simpa using (Finset.mem_filter.mp this).1
  · intro h
    congr 1
    refine Finset.Subset.antisymm hsub fun i hi => ?_
    simp only [Finset.mem_filter, List.mem_toFinset, Finset.mem_range] at hi ⊢
    exact ⟨h i hi.1 hi.2, hi.2⟩

/-! ### The list of completed calls -/

theorem mem_completed {own closed : List Nat} {c : Nat} (h : c ∈ completed own closed) :
    AllClosed own closed c := by
  simp only [completed, List.mem_filterMap, Option.filter_eq_some_iff, decide_eq_true_eq] at h
  obtain ⟨t, -, -, h⟩ := h
  exact fun i hi hc => List.mem_of_mem_take (h i hi hc)

theorem completed_nodup {own closed : List Nat} (hnd : closed.Nodup) : (completed own closed).Nodup := by
  induction closed using List.reverseRecOn with
  | nil => simp [completed]
  | append_singleton closed i ih =>
    obtain ⟨h1, -, h3⟩ := List.nodup_append.mp hnd
    rw [completed_append, List.nodup_append]
    refine ⟨ih h1, ?_, fun a ha b hb hab => ?_⟩
    · cases (own[i]?).filter fun c => AllClosed own (closed ++ [i]) c <;> simp
    · -- a call that completes now had its job `i` open before
      subst hab
      simp only [Option.mem_toList, Option.filter_eq_some_iff] at hb
      have hi : i < own.length := (List.getElem?_eq_some_iff.mp hb.1).1
      exact h3 i (mem_completed ha i hi hb.1) i (by simp) rfl

/-- New calls do not change which of the old ones are complete. -/
theorem completed_congr {own own' closed : List Nat} (hlt : ∀ i ∈ closed, i < own.length)
    (hnew : ∀ i ∈ own', i ∉ own) : completed (own ++ own') closed = completed own closed := by
  refine List.filterMap_congr fun t ht => ?_
  have ht : t < closed.length := List.mem_range.mp ht
  have hmem : closed.getD t 0 ∈ closed := by
    rw [List.getD_eq_getElem?_getD, List.getElem?_eq_getElem ht]; exact List.getElem_mem ht
  rw [List.getElem?_append_left (hlt _ hmem)]
  cases hc : own[closed.getD t 0]? with
  | none => rfl
  | some c =>
  have hco : c ∈ own := List.mem_of_getElem? hc
  rw [Option.filter_some, Option.filter_some]
  congr 2
  rw [decide_eq_decide]
  constructor
  · intro h i hi hic
    exact h i (by simp; omega) (by rw [List.getElem?_append_left hi]; exact hic)
  · intro h i hi hic
    rcases Nat.lt_or_ge i own.length with hlt | hge
    · exact h i hlt (by rwa [List.getElem?_append_left hlt] at hic)
    · rw [List.getElem?_append_right hge] at hic
      exact absurd hco (hnew c (List.mem_of_getElem? hic))

theorem completed_subset {own closed : List Nat} {c : Nat} (h : c ∈ completed own closed) : c ∈ own := by
  simp only [completed, List.mem_filterMap, Option.filter_eq_some_iff] at h
  obtain ⟨t, -, h, -⟩ := h
  exact List.mem_of_getElem? h

/-- A call is listed as soon as all its jobs are closed. -/
theorem mem_completed_iff {own closed : List Nat} {c : Nat} (hc : c ∈ own) :
    c ∈ completed own closed ↔ AllClosed own closed c := by
  refine ⟨mem_completed, fun h => ?_⟩
  induction closed using List.reverseRecOn with
  | nil =>
    obtain ⟨i, hi⟩ := List.mem_iff_getElem?.mp hc
    simpa using h i (List.getElem?_eq_some_iff.mp hi).1 hi
  | append_singleton closed i ih =>
    rw [completed_append, List.mem_append]
    by_cases hold : AllClosed own closed c
    · exact .inl (ih hold)
    · -- the one job that was still open is `i`
      simp only [AllClosed, Classical.not_forall] at hold
      obtain ⟨j, hj, hjc, hjo⟩ := hold
      have hji : j = i := by
        rcases List.mem_append.mp (h j hj hjc) with h | h
        · exact absurd h hjo
        · exact List.mem_singleton.mp h
      refine .inr ?_
      rw [Option.mem_toList, ← hji, hjc, Option.filter_some, hji, if_pos (decide_eq_true h)]

/-! ## The tables -/

/-- What the wrapped tables hold for every job that is not closed. -/
structure Entry (cfg : Cfg) (w : Wk) (i c : Nat) : Prop where
  tensorKey : w.mgr.dpdkKeyToTensorKey (i % DPDK_KEY_TOTAL) = tensorKeyOf w.calls c
  mutexIdx : w.mgr.dpdkKeyToMutexIdx (i % DPDK_KEY_TOTAL) = c % DPDK_KEY_TOTAL
  total : w.mgr.tensorKeyPartTotal (c % DPDK_KEY_TOTAL) = (owners cfg w.calls).count c
  finish : w.mgr.tensorKeyPartFinish (c % DPDK_KEY_TOTAL) =
    w.closed.countP fun j => (owners cfg w.calls)[j]? = some c

structure Tables (cfg : Cfg) (w : Wk) : Prop where
  mutex : w.mgr.currMutexIdx = w.calls.length % DPDK_KEY_TOTAL
  drawn : (owners cfg w.calls).length = w.mgr.dpdkKey
  positive : ∀ c ∈ w.calls, 0 < parts cfg c
  entry : ∀ i c, (owners cfg w.calls)[i]? = some c → i ∉ w.closed → Entry cfg w i c
  finishKeys : w.mgr.finishKeys = (completed (owners cfg w.calls) w.closed).map (tensorKeyOf w.calls)

/-- Fewer than `u` packets are created and not closed. -/
def Unfinished (u : Nat) (w : Wk) : Prop := w.mgr.dpdkKey < w.closed.length + u

/-- The number of unfinished packets that the wrapped keys can tell apart. -/
abbrev KEY_ROOM : Nat := DPDK_KEY_TOTAL - MAX_AGTR_COUNT + 2

theorem length_le_of_nodup {l : List Nat} (hnd : l.Nodup) {n : Nat} (h : ∀ i ∈ l, i < n) :
    l.length ≤ n := by
  have hsub : l.toFinset ⊆ Finset.range n := fun i hi => by
    rw [List.mem_toFinset] at hi; exact Finset.mem_range.mpr (h i hi)
  simpa [List.toFinset_card_of_nodup hnd] using Finset.card_le_card hsub

/-- All jobs since the oldest unfinished one have different keys. -/
theorem window {w : Wk} (h : Slots w) (hu : Unfinished KEY_ROOM w) {i : Nat} (hi : i ∉ w.closed) :
    w.mgr.dpdkKey ≤ i + DPDK_KEY_TOTAL := by
  have hle := length_le_of_nodup h.nodup h.closed_lt
  unfold Unfinished at hu
  rcases Nat.lt_or_ge i w.sent.length with hs | hs
  · -- an open job: at most `MAX_AGTR_COUNT - 1` younger ones are sent, hence closed
    have hlen := (h.isOpen i hs hi).2.2.2
    have hlt : (i :: w.closed).length ≤ w.sent.length := by
      refine length_le_of_nodup (List.nodup_cons.mpr ⟨hi, h.nodup⟩) fun j hj => ?_
      rcases List.mem_cons.mp hj with rfl | hj
      · exact hs
      · exact h.closed_lt j hj
    simp only [KEY_ROOM, DPDK_KEY_TOTAL, MAX_AGTR_COUNT, List.length_cons] at *
    omega
  · simp only [KEY_ROOM, DPDK_KEY_TOTAL, MAX_AGTR_COUNT] at *
    omega

/-- Two unfinished calls never share a mutex index. -/
theorem Tables.call_inj {cfg : Cfg} {w : Wk} (ht : Tables cfg w) (h : Slots w)
    (hu : Unfinished KEY_ROOM w) {i j c d : Nat} (hi : (owners cfg w.calls)[i]? = some c)
    (hic : i ∉ w.closed) (hj : (owners cfg w.calls)[j]? = some d) (hjc : j ∉ w.closed)
    (he : c % DPDK_KEY_TOTAL = d % DPDK_KEY_TOTAL) : c = d := by
  have h1 := owners_window ht.positive hi
  have h2 := owners_window ht.positive hj
  have h3 := owners_lt hi
  have h4 := owners_lt hj
  have h5 := window h hu hic
  have h6 := window h hu hjc
  rw [ht.drawn] at h1 h2
  simp only [DPDK_KEY_TOTAL] at *
  omega

/-! ### Closing a job -/

theorem Unfinished.close {u : Nat} {w : Wk} (hu : Unfinished u w) (i : Nat) : Unfinished u (w.close i) := by
  simp only [Unfinished, Wk.close, List.length_append, List.length_singleton] at *
  exact Nat.lt_of_lt_of_le hu (by omega)

theorem Tables.close {cfg : Cfg} {w : Wk} (ht : Tables cfg w) (h : Slots w)
    (hu : Unfinished KEY_ROOM w) {i : Nat} (hi : w.Open i) : Tables cfg (w.close i) := by
  have hlen : i < (owners cfg w.calls).length := by
    have := h.drawn; have := ht.drawn; have := hi.1; omega
  obtain ⟨c, hc⟩ : ∃ c, (owners cfg w.calls)[i]? = some c := ⟨_, List.getElem?_eq_getElem hlen⟩
  have he := ht.entry i c hc hi.2
  have hnd : (w.closed ++ [i]).Nodup := (h.close hi).nodup
  have hcount : w.mgr.tensorKeyPartFinish (c % DPDK_KEY_TOTAL) + 1 =
      (w.closed ++ [i]).countP fun j => (owners cfg w.calls)[j]? = some c := by
    rw [he.finish, List.countP_append]; simp [hc]
  refine ⟨ht.mutex, ht.drawn, ht.positive, fun j d hj hjc => ?_, ?_⟩
  · have hjc' : j ∉ w.closed ∧ j ≠ i := by simpa [Wk.close] using hjc
    have hej := ht.entry j d hj hjc'.1
    refine ⟨hej.tensorKey, hej.mutexIdx, hej.total, ?_⟩
    simp only [Wk.close, freeSlot, finishPart, he.mutexIdx]
    by_cases hcd : d = c
    · rw [hcd, Function.update_self, hcount]
    · -- the counter of another unfinished call is another entry
      have hne : d % DPDK_KEY_TOTAL ≠ c % DPDK_KEY_TOTAL :=
        fun hm => hcd (ht.call_inj h hu hj hjc'.1 hc hi.2 hm)
      have hcd' : c ≠ d := Ne.symm hcd
      rw [Function.update_of_ne hne, hej.finish, List.countP_append]
      simp [hc, hcd']
  · have hall : w.mgr.tensorKeyPartFinish (c % DPDK_KEY_TOTAL) + 1 =
        w.mgr.tensorKeyPartTotal (c % DPDK_KEY_TOTAL) ↔ AllClosed (owners cfg w.calls) (w.closed ++ [i]) c := by
      rw [hcount, he.total]
      refine countP_eq_count_iff hnd (fun j hj => ?_) c
      have := (h.close hi).closed_lt j hj
      have := h.drawn; have := ht.drawn
      simp only [Wk.close] at *; omega
    simp only [Wk.close, freeSlot, finishPart, he.mutexIdx, he.tensorKey, hall, completed_append, hc,
      Option.filter_some, List.map_append, ht.finishKeys]
    split <;> simp_all

theorem Closes.tables {cfg : Cfg} {w w' : Wk} {is : List Nat} (hc : Closes w is w') (ht : Tables cfg w)
    (h : Slots w) (hu : Unfinished KEY_ROOM w) : Tables cfg w' := by
  induction hc with
  | nil => exact ht
  | cons hi _ ih => exact ih (ht.close h hu hi) (h.close hi) (hu.close _)

/-! ### A new call -/

theorem tensorKeyOf_append (calls : List Call) (x : Call) {c : Nat} (hc : c < calls.length) :
    tensorKeyOf (calls ++ [x]) c = tensorKeyOf calls c := by
  rw [tensorKeyOf, tensorKeyOf, List.getElem?_append_left hc]

section Push
variable {cfg : Cfg} {w : Wk} {x : Call}

theorem Tables.closed_lt (ht : Tables cfg w) (h : Slots w) : ∀ j ∈ w.closed, j < (owners cfg w.calls).length :=
  fun j hj => by
    have := h.closed_lt j hj; have := h.drawn; have := ht.drawn; omega

theorem Tables.countP_push (ht : Tables cfg w) (h : Slots w) (x : Call) (d : Nat) :
    (w.closed.countP fun j => (owners cfg (w.calls ++ [x]))[j]? = some d) =
      w.closed.countP fun j => (owners cfg w.calls)[j]? = some d :=
  List.countP_congr fun j hj => by rw [owners_append, List.getElem?_append_left (ht.closed_lt h j hj)]

theorem Tables.drawn_push (ht : Tables cfg w) (x : Call) :
    (owners cfg (w.calls ++ [x])).length = w.mgr.dpdkKey + parts cfg x := by
  rw [owners_append, List.length_append, List.length_replicate, ht.drawn]

theorem Tables.positive_push (ht : Tables cfg w) (hx : 0 < parts cfg x) :
    ∀ c ∈ w.calls ++ [x], 0 < parts cfg c := fun c hc => by
  rcases List.mem_append.mp hc with hc | hc
  · exact ht.positive c hc
  · rwa [List.mem_singleton.mp hc]

/-- An older unfinished job: neither its key nor its mutex index is drawn again. -/
theorem Tables.entry_old (ht : Tables cfg w) (h : Slots w) (hx : 0 < parts cfg x) {i c : Nat}
    (hi : (owners cfg w.calls)[i]? = some c) (hic : i ∉ w.closed)
    (hwin : w.mgr.dpdkKey + parts cfg x ≤ i + DPDK_KEY_TOTAL) :
    Entry cfg { w with mgr := dpdkPushPull cfg w.mgr x, calls := w.calls ++ [x] } i c := by
  obtain ⟨-, hother, -, htotal, hfinish⟩ := dpdkPushPull_tables cfg w.mgr x
  have he := ht.entry i c hi hic
  have hc := owners_lt hi
  have hlt : i < w.mgr.dpdkKey := ht.drawn ▸ (List.getElem?_eq_some_iff.mp hi).1
  have hnew : (owners cfg (w.calls ++ [x]))[i]? = some c := by
    rw [owners_append, List.getElem?_append_left (List.getElem?_eq_some_iff.mp hi).1]
    exact hi
  have hwc := owners_window (ht.positive_push hx) hnew
  rw [ht.drawn_push, List.length_append, List.length_singleton] at hwc
  have hnd : ¬ ∃ j < parts cfg x, i % DPDK_KEY_TOTAL = (w.mgr.dpdkKey + j) % DPDK_KEY_TOTAL := by
    rintro ⟨j, hj, hm⟩
    simp only [DPDK_KEY_TOTAL] at *; omega
  have hne : c % DPDK_KEY_TOTAL ≠ w.mgr.currMutexIdx := by
    rw [ht.mutex]; simp only [DPDK_KEY_TOTAL] at *; omega
  refine ⟨?_, ?_, ?_, ?_⟩
  · rw [(hother _ hnd).1, he.tensorKey, tensorKeyOf_append _ _ hc]
  · rw [(hother _ hnd).2, he.mutexIdx]
  · simp only [htotal]
    rw [Function.update_of_ne hne, he.total, owners_count_old x hc]
  · simp only [hfinish, ht.countP_push h x]
    rw [Function.update_of_ne hne, he.finish]

/-- The jobs of the new call. -/
theorem Tables.entry_new (ht : Tables cfg w) (h : Slots w) {p : Nat} (hp : p < parts cfg x) :
    Entry cfg { w with mgr := dpdkPushPull cfg w.mgr x, calls := w.calls ++ [x] }
      (w.mgr.dpdkKey + p) w.calls.length := by
  obtain ⟨hdrawn, -, -, htotal, hfinish⟩ := dpdkPushPull_tables cfg w.mgr x
  obtain ⟨hkey, hidx⟩ := hdrawn _ ⟨p, hp, rfl⟩
  refine ⟨?_, ?_, ?_, ?_⟩
  · rw [hkey]; simp [tensorKeyOf]
  · rw [hidx, ht.mutex]
  · simp only [htotal, ht.mutex]
    rw [Function.update_self, owners_count_new]
  · simp only [hfinish, ht.mutex, ht.countP_push h x]
    rw [Function.update_self, eq_comm, List.countP_eq_zero]
    intro j _ hj
    exact Nat.lt_irrefl _ (owners_lt (of_decide_eq_true hj))

theorem Tables.push (ht : Tables cfg w) (h : Slots w)
    (hx : 0 < parts cfg x) (hwin : ∀ i, i ∉ w.closed → w.mgr.dpdkKey + parts cfg x ≤ i + DPDK_KEY_TOTAL) :
    Tables cfg { w with mgr := dpdkPushPull cfg w.mgr x, calls := w.calls ++ [x] } := by
  obtain ⟨-, -, hmutex, -, -⟩ := dpdkPushPull_tables cfg w.mgr x
  obtain ⟨hkey, -, hu⟩ := dpdkPushPull_spec cfg w.mgr x
  refine ⟨?_, by rw [ht.drawn_push, hkey], ht.positive_push hx, fun i c hi hic => ?_, ?_⟩
  · rw [hmutex, ht.mutex, List.length_append, List.length_singleton, Nat.mod_add_mod]
  · rw [owners_append] at hi
    rcases Nat.lt_or_ge i (owners cfg w.calls).length with hlt | hge
    · rw [List.getElem?_append_left hlt] at hi
      exact ht.entry_old h hx hi hic (hwin i hic)
    · rw [List.getElem?_append_right hge, List.getElem?_replicate, Option.ite_none_right_eq_some] at hi
      obtain ⟨hp, hc⟩ := hi
      cases hc
      have he := ht.entry_new h hp
      rwa [← ht.drawn, Nat.add_sub_cancel' hge] at he
  · have hnew : ∀ i ∈ List.replicate (parts cfg x) w.calls.length, i ∉ owners cfg w.calls := by
      intro i hi hm
      obtain ⟨j, hj⟩ := List.mem_iff_getElem?.mp hm
      exact Nat.lt_irrefl _ ((List.eq_of_mem_replicate hi) ▸ owners_lt hj)
    simp only [hu.finishKeys, ht.finishKeys, owners_append, completed_congr (ht.closed_lt h) hnew]
    refine List.map_congr_left fun c hc => ?_
    obtain ⟨j, hj⟩ := List.mem_iff_getElem?.mp (completed_subset hc)
    rw [tensorKeyOf_append _ _ (owners_lt hj)]

end Push

/-! ## Every run -/

/-- The runs considered: fewer than `2 ^ 32` rounds per slot, fewer than `u` unfinished
packets, calls of positive length. -/
def Fair (u : Nat) (_ : Wk) (a : Act) (w' : Wk) : Prop :=
  RoundsOk w' ∧ Unfinished u w' ∧ match a with
    | .push c => 0 < c.len
    | _ => True

theorem parts_pos {cfg : Cfg} {c : Call} (h : 0 < c.len) : 0 < parts cfg c := by
  have hb : 0 < bound cfg := by unfold bound; split <;> decide
  exact Nat.div_pos (by omega) hb

structure Inv (cfg : Cfg) (w : Wk) : Prop where
  slots : Slots w
  rounds : RoundsOk w
  room : Unfinished KEY_ROOM w
  tables : Tables cfg w

theorem inv_init (cfg : Cfg) (mem : Nat → Nat → Byte) : Inv cfg (Wk.init mem) where
  slots := slots_init mem
  rounds := by simp [RoundsOk, Wk.init]
  room := by simp [Unfinished, Wk.init, Mgr.init, KEY_ROOM, DPDK_KEY_TOTAL, MAX_AGTR_COUNT]
  tables := ⟨rfl, rfl, by simp [Wk.init], by simp [Wk.init, owners], by simp [Wk.init, Mgr.init, completed]⟩

/-- Sending and host writes do not touch the tables. -/
theorem Tables.elsewhere {cfg : Cfg} {w : Wk} (ht : Tables cfg w) (ready : Nat → Bool) (key : Nat → Nat)
    (queue : List Job) (mem : Nat → Nat → Byte) (sent : List (Job × Frame)) :
    Tables cfg { w with
      mgr := { w.mgr with slotReady := ready, slotDpdkKey := key, pushpulljobQueue := queue, mem := mem }
      sent := sent } :=
  ⟨ht.mutex, ht.drawn, ht.positive, fun i c hi hic =>
    have he := ht.entry i c hi hic
    ⟨he.tensorKey, he.mutexIdx, he.total, he.finish⟩, ht.finishKeys⟩

theorem tables_step {cfg : Cfg} {w w' : Wk} {a : Act} (h : Inv cfg w) (hs : step cfg w a = some w')
    (hf : Fair KEY_ROOM w a w') : Tables cfg w' := by
  have ht := h.tables
  cases a with
  | push c =>
    have hslots := h.slots.push hs
    simp only [step] at hs
    split at hs
    · cases hs
    · cases hs
      refine ht.push h.slots (parts_pos hf.2.2) fun i hi => ?_
      have := window hslots hf.2.1 hi
      rwa [(dpdkPushPull_spec cfg w.mgr c).1] at this
  | tx payload =>
    obtain ⟨job, rest, -, -, rfl⟩ := step_tx hs
    exact ht.elsewhere _ _ _ _ _
  | reply i f =>
    rcases step_reply h.slots h.rounds hs with rfl | ⟨mem, ho, rfl⟩
    · exact ht
    · exact (ht.elsewhere _ _ _ mem _).close (h.slots.withMem mem) h.room ho
  | reset => exact Closes.tables (step_reset h.slots hs) ht h.slots h.room
  | host mem =>
    cases hs
    exact ht.elsewhere _ _ _ mem _

theorem inv_inductive (cfg : Cfg) (mem : Nat → Nat → Byte) :
    ((worker cfg mem).restrict (Fair KEY_ROOM)).Inductive (Inv cfg) where
  init := by rintro w rfl; exact inv_init cfg mem
  step := fun _ _ _ h hs =>
    ⟨slots_step h.slots h.rounds hs.1, hs.2.1, hs.2.2.1, tables_step h hs.1 hs.2⟩

/-- Job `i` was sent on slot `s`, as packet `p`, and is still open. -/
def OpenOn (w : Wk) (s i : Nat) (p : Frame) : Prop :=
  ∃ j, w.sent[i]? = some (j, p) ∧ j.agtrIndex = s ∧ i ∉ w.closed

/-- A slot is in use exactly by its one open job. -/
theorem slot_open_iff {w : Wk} (h : Slots w) (s : Nat) :
    (w.mgr.slotReady s = false ↔ ∃! i, ∃ p, OpenOn w s i p) ∧
    ∀ i p, OpenOn w s i p →
      p.msg.key = w.mgr.slotDpdkKey s ∧ p.msg.p4mlHdrs.roundNum = w.mgr.slotRoundnum s := by
  have hof : ∀ i p, OpenOn w s i p → w.Open i ∧ i % MAX_AGTR_COUNT = s := by
    rintro i p ⟨j, hj, rfl, hic⟩
    exact ⟨⟨(List.getElem?_eq_some_iff.mp hj).1, hic⟩, (h.packet i _ hj).job.agtrIndex.symm⟩
  refine ⟨⟨fun hr => ?_, ?_⟩, fun i p hp => ?_⟩
  · obtain ⟨i, hi, rfl, hic⟩ := h.busy s hr
    have hx := List.getElem?_eq_getElem hi
    refine ⟨i, ⟨_, _, hx, (h.packet i _ hx).job.agtrIndex, hic⟩, ?_⟩
    rintro k ⟨p, hp⟩
    obtain ⟨hk, hks⟩ := hof k p hp
    exact h.open_unique hk ⟨hi, hic⟩ hks
  · rintro ⟨i, ⟨p, hp⟩, -⟩
    obtain ⟨hi, rfl⟩ := hof i p hp
    exact (h.isOpen i hi.1 hi.2).1
  · obtain ⟨hi, rfl⟩ := hof i p hp
    obtain ⟨j, hj, -, -⟩ := hp
    obtain ⟨-, hk, hn, -⟩ := h.isOpen i hi.1 hi.2
    have hpk := h.packet i _ hj
    exact ⟨hpk.key.trans hk.symm, hpk.roundNum.trans hn.symm⟩

/-- **Completion.** In every run with fewer than `2 ^ 32` rounds per slot and at most
`DPDK_KEY_TOTAL - MAX_AGTR_COUNT + 1` unfinished packets, the pushed keys are those of the calls
whose last job was closed, each call once, in the order in which that happened; no job is closed
twice; and a slot is in use exactly by its one open job. -/
theorem completion (cfg : Cfg) (mem : Nat → Nat → Byte) (w : Wk)
    (h : ((worker cfg mem).restrict (Fair (DPDK_KEY_TOTAL - MAX_AGTR_COUNT + 2))).Reachable w) :
    w.mgr.finishKeys = (completed (owners cfg w.calls) w.closed).map (tensorKeyOf w.calls) ∧
    (completed (owners cfg w.calls) w.closed).Nodup ∧
    (∀ k c, w.calls[k]? = some c →
      (owners cfg w.calls).count k = (c.len + bound cfg - 1) / bound cfg ∧
      (k ∈ completed (owners cfg w.calls) w.closed ↔ AllClosed (owners cfg w.calls) w.closed k)) ∧
    w.closed.Nodup ∧
    ∀ s, (w.mgr.slotReady s = false ↔ ∃! i, ∃ p, OpenOn w s i p) ∧
      ∀ i p, OpenOn w s i p →
        p.msg.key = w.mgr.slotDpdkKey s ∧ p.msg.p4mlHdrs.roundNum = w.mgr.slotRoundnum s := by
  have hi := (inv_inductive cfg mem).reachable w h
  refine ⟨hi.tables.finishKeys, completed_nodup hi.slots.nodup, fun k c hk => ?_, hi.slots.nodup,
    slot_open_iff hi.slots⟩
  have hcount : (owners cfg w.calls).count k = parts cfg c := owners_count hk
  refine ⟨hcount, mem_completed_iff (List.count_pos_iff.mp ?_)⟩
  rw [hcount]
  exact hi.tables.positive c (List.mem_of_getElem? hk)

/-! ### Two runs -/

instance (u : Nat) (w : Wk) (a : Act) (w' : Wk) : Decidable (Fair u w a w') :=
  match a with
  | .push c => inferInstanceAs (Decidable (RoundsOk w' ∧ _ < _ ∧ 0 < c.len))
  | .tx _ | .reply _ _ | .reset | .host _ => inferInstanceAs (Decidable (RoundsOk w' ∧ _ < _ ∧ True))

/-- The answer to job `i`. -/
def answer (i : Nat) : Frame where
  etherType := 0x0d00#16
  msg :=
    { p4mlHdrs := { P4mlhdr.zero with
        agtr := BitVec.ofNat 16 (i % MAX_AGTR_COUNT)
        roundNum := BitVec.ofNat 32 (i / MAX_AGTR_COUNT) }
      key := i % DPDK_KEY_TOTAL
      cmd := TENSOR_COMM
      len := 0
      shutdown := false }

def gradCall (tensorKey len : Nat) : Call where
  tensorKey := tensorKey
  data := ⟨0, 0⟩
  len := len
  cmd := TENSOR_COMM
  tensorName := ['b', 'y', 't', 'e', 'p', 's', '.', 'G']

def smallCfg : Cfg := ⟨inca true, 0, 1⟩

def zeroMem : Nat → Nat → Byte := fun _ _ => 0

/-- A call of two packets, answered in the opposite order. -/
def twoPackets : List Act :=
  [.push (gradCall 7 1025), .tx .zero, .tx .zero, .reply 1 (answer 1), .reply 0 (answer 0)]

theorem completion_two_packets : ∃ w,
    ((worker smallCfg zeroMem).restrict (Fair (DPDK_KEY_TOTAL - MAX_AGTR_COUNT + 2))).Reachable w ∧
    w.closed = [1, 0] ∧ w.mgr.finishKeys = [7] ∧
    (completed (owners smallCfg w.calls) w.closed).map (tensorKeyOf w.calls) = [7] := by
  have hex : ∃ w, LTS.execute (LTS.guarded (step smallCfg) (Fair KEY_ROOM)) (Wk.init zeroMem) twoPackets =
      some w ∧ w.closed = [1, 0] ∧ w.mgr.finishKeys = [7] := ⟨_, rfl, rfl, rfl⟩
  obtain ⟨w, hw, hcl, hfin⟩ := hex
  have hr := LTS.Reachable.of_execute (.init (M := (worker smallCfg zeroMem).restrict (Fair KEY_ROOM)) rfl) hw
  exact ⟨w, hr, hcl, hfin, (completion smallCfg zeroMem w hr).1 ▸ hfin⟩

/-- Three one-packet calls are sent, jobs 1 and 2 are answered and job 0 is not; then more
one-packet calls are made, `k` in all. Call number `t` has tensor key `t`. -/
structure Crowded (k : Nat) (w : Wk) : Prop where
  reachable : ((worker smallCfg zeroMem).restrict (Fair DPDK_KEY_TOTAL)).Reachable w
  calls : w.calls = (List.range k).map (gradCall · 1)
  sent : w.sent.length = 3
  cmd : ∃ x, w.sent[0]? = some x ∧ x.1.cmd = TENSOR_COMM
  closed : w.closed = [1, 2]
  dpdkKey : w.mgr.dpdkKey = k
  mutex : w.mgr.currMutexIdx = k % DPDK_KEY_TOTAL
  finishKeys : w.mgr.finishKeys = [1, 2]

theorem crowded_three : ∃ w, Crowded 3 w := by
  have hex : ∃ w, LTS.execute (LTS.guarded (step smallCfg) (Fair DPDK_KEY_TOTAL)) (Wk.init zeroMem)
      [.push (gradCall 0 1), .push (gradCall 1 1), .push (gradCall 2 1), .tx .zero, .tx .zero,
        .tx .zero, .reply 1 (answer 1), .reply 2 (answer 2)] = some w ∧
      (((worker smallCfg zeroMem).restrict (Fair DPDK_KEY_TOTAL)).Reachable w → Crowded 3 w) :=
    ⟨_, rfl, fun hr => ⟨hr, rfl, rfl, ⟨_, rfl, rfl⟩, rfl, rfl, rfl, rfl⟩⟩
  obtain ⟨w, hw, hc⟩ := hex
  exact ⟨w, hc (LTS.Reachable.of_execute (.init rfl) hw)⟩

theorem parts_gradCall (t : Nat) : parts smallCfg (gradCall t 1) = 1 := by
  simp [parts, bound, smallCfg, gradCall, DPDK_ELEMENT_NUM, MAX_ENTRIES_PER_PACKET]

/-- The state after one more one-packet call. -/
def pushOne (w : Wk) (t : Nat) : Wk :=
  { w with mgr := dpdkPushPull smallCfg w.mgr (gradCall t 1), calls := w.calls ++ [gradCall t 1] }

theorem Crowded.push {k : Nat} {w : Wk} (h : Crowded k w) (hk : k ≤ DPDK_KEY_TOTAL) :
    Crowded (k + 1) (pushOne w k) := by
  obtain ⟨hkey, -, hu⟩ := dpdkPushPull_spec smallCfg w.mgr (gradCall k 1)
  obtain ⟨-, -, hmutex, -, -⟩ := dpdkPushPull_tables smallCfg w.mgr (gradCall k 1)
  have hkey : (pushOne w k).mgr.dpdkKey = k + 1 := by rw [pushOne, hkey, h.dpdkKey, parts_gradCall]
  have hR : RoundsOk (pushOne w k) := fun i hi => by
    have hi : i < 3 := h.sent ▸ hi
    simp only [MAX_AGTR_COUNT]; omega
  refine ⟨.step h.reachable (l := .push (gradCall k 1)) ⟨rfl, hR, ?_, Nat.one_pos⟩, ?_, h.sent, h.cmd,
    h.closed, hkey, ?_, hu.finishKeys.trans h.finishKeys⟩
  · rw [Unfinished, hkey, show (pushOne w k).closed = [1, 2] from h.closed]
    simp only [List.length_cons, List.length_nil]; omega
  · rw [pushOne, h.calls, List.range_succ, List.map_append]; rfl
  · rw [pushOne, hmutex, h.mutex, Nat.mod_add_mod]

theorem crowded {k : Nat} (h3 : 3 ≤ k) (hk : k ≤ DPDK_KEY_TOTAL) : ∃ w, Crowded k w := by
  induction k, h3 using Nat.le_induction with
  | base => exact crowded_three
  | succ k _ ih =>
    obtain ⟨w, hw⟩ := ih (by omega)
    exact ⟨_, hw.push (by omega)⟩

/-- The last call takes key 0 and mutex index 0 from the open job 0. -/
theorem Crowded.reused {w : Wk} (h : Crowded DPDK_KEY_TOTAL w) :
    let m := (pushOne w DPDK_KEY_TOTAL).mgr
    m.dpdkKeyToTensorKey 0 = DPDK_KEY_TOTAL ∧ m.dpdkKeyToMutexIdx 0 = 0 ∧
    m.tensorKeyPartTotal 0 = 1 ∧ m.tensorKeyPartFinish 0 = 0 := by
  obtain ⟨hdrawn, -, -, htotal, hfinish⟩ :=
    dpdkPushPull_tables smallCfg w.mgr (gradCall DPDK_KEY_TOTAL 1)
  have hmu : w.mgr.currMutexIdx = 0 := h.mutex.trans (Nat.mod_self _)
  obtain ⟨h1, h2⟩ := hdrawn 0 ⟨0, by rw [parts_gradCall]; decide, by rw [h.dpdkKey, Nat.add_zero, Nat.mod_self]⟩
  refine ⟨h1, h2.trans hmu, ?_, ?_⟩
  · rw [pushOne, htotal, hmu, Function.update_self, parts_gradCall]
  · rw [pushOne, hfinish, hmu, Function.update_self]

theorem owners_gradCalls (k : Nat) : owners smallCfg ((List.range k).map (gradCall · 1)) = List.range k := by
  induction k with
  | zero => rfl
  | succ k ih =>
    rw [List.range_succ, List.map_append, List.map_singleton, owners_append, ih, parts_gradCall]
    simp

/-- With one job a call, a call is complete when its job is closed. -/
theorem completed_range {n : Nat} {closed : List Nat} (h : ∀ i ∈ closed, i < n) :
    completed (List.range n) closed = closed := by
  induction closed using List.reverseRecOn with
  | nil => rfl
  | append_singleton closed i ih =>
    have hi : i < n := h i (by simp)
    have hall : AllClosed (List.range n) (closed ++ [i]) i := fun j hj hji => by
      rw [List.getElem?_eq_getElem hj, List.getElem_range] at hji
      cases hji; simp
    rw [completed_append, ih fun j hj => h j (by simp [hj]), List.getElem?_range hi, Option.filter_some,
      if_pos (decide_eq_true hall)]
    rfl

/-- `DPDK_KEY_TOTAL - 1` unfinished packets are too many: closing job 0 reports the last call,
whose packet has not even been sent, and call 0 is never reported. -/
theorem completion_counterexample : ∃ w,
    ((worker smallCfg zeroMem).restrict (Fair DPDK_KEY_TOTAL)).Reachable w ∧
    w.closed = [1, 2, 0] ∧ w.mgr.finishKeys = [1, 2, DPDK_KEY_TOTAL] ∧
    (completed (owners smallCfg w.calls) w.closed).map (tensorKeyOf w.calls) = [1, 2, 0] := by
  obtain ⟨v, hv⟩ := crowded (k := DPDK_KEY_TOTAL) (by decide) (Nat.le_refl _)
  obtain ⟨htk, hmi, htot, hfin⟩ := hv.reused
  have hc := hv.push (Nat.le_refl _)
  generalize pushOne v DPDK_KEY_TOTAL = w at htk hmi htot hfin hc
  have hslots : Slots w ∧ RoundsOk w := by
    refine (slots_reachable smallCfg zeroMem).reachable w ?_
    exact hc.reachable.mono fun _ _ _ h => h.1
  obtain ⟨⟨job, p⟩, hx, hcmd⟩ := hc.cmd
  have hp := hslots.1.packet 0 _ hx
  have hround : w.mgr.slotRoundnum 0 = 0#32 := (hslots.1.isOpen 0 (by rw [hc.sent]; decide)
    (by rw [hc.closed]; decide)).2.2.1
  have hans : AnswerTo p (answer 0) := ⟨hp.agtr.symm, hp.roundNum.symm, hp.key.symm, by
    rw [hp.cmd, hcmd]; rfl⟩
  have hacc : RxAccepts w.mgr (answer 0) := ⟨rfl, by decide, by decide, hround.symm⟩
  obtain ⟨mem, hm⟩ := handleReply_eq smallCfg w.mgr (show (answer 0).msg.cmd ≠ TENSOR_NORM by decide)
  have hst : step smallCfg w (.reply 0 (answer 0)) = some { w with
      mgr := freeSlot { w.mgr with mem := mem } 0 0, closed := [1, 2, 0] } := by
    simp only [step, hx, Option.bind_some, if_pos hans, Wk.receive, rxThread_eq, if_pos hacc, hm, hc.closed]
    rfl
  refine ⟨_, .step hc.reachable ⟨hst, hslots.2, ?_, trivial⟩, rfl, ?_, ?_⟩
  · have := hc.dpdkKey
    simp only [Unfinished, freeSlot, finishPart, this, List.length_cons, List.length_nil]; omega
  · simp [freeSlot, finishPart, hmi, htot, hfin, htk, hc.finishKeys]
  · simp only [hc.calls, owners_gradCalls]
    rw [completed_range (by decide)]
    have hk : ∀ t, t < DPDK_KEY_TOTAL + 1 →
        tensorKeyOf ((List.range (DPDK_KEY_TOTAL + 1)).map (gradCall · 1)) t = t := fun t ht => by
      rw [tensorKeyOf, List.getElem?_map, List.getElem?_range ht]; rfl
    rw [List.map_cons, List.map_cons, List.map_singleton, hk 1 (by decide), hk 2 (by decide),
      hk 0 (by decide)]

end Inca.L3.Completion
