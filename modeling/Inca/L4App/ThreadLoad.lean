import Mathlib.Algebra.BigOperators.Group.List.Basic
import Inca.L4App.Server

/-!
# The load of the engine threads (`server/server.h`)

The first push of a key goes to the thread with the least load so far, and adds its
length to it; all later requests for the key go to the same thread. The calls of
`GetThreadID` run under a lock, so any order of requests is a sequence of calls
(`Calls`). A pull has length 0 and comes after a push of its key; loads stay below
`2 ^ 64`, the range of `acc_load_`.

* `minLoad_spec`: the scan finds a thread with the least load.
* `Balanced.add`: the greedy step.
* `Loads.call`: what one call does to what is known of threads and loads.
* `thread_loads`: one thread for a key, loads are sums of first pushes, and they differ
  by no more than the largest first push.
-/
namespace Inca.L4.ThreadLoad
open Inca.L4.Server

variable {E W σ : Type}

/-! ## Calls -/

structure Request where
  key : Nat
  len : Nat

/-- A request, and the thread that was returned for it. -/
structure Call extends Request where
  tid : Nat

/-- What requests are like: a pull follows a push of its key, and there is a thread whose load
stays below `2 ^ 64` with a new key on it. -/
structure Request.Fits (cfg : Config) (history : List Call) (s : State E W σ) (r : Request) : Prop where
  pushed : r.len = 0 → ∃ c ∈ history, c.key = r.key ∧ 0 < c.len
  load : s.hashCache r.key = none → ∃ i < cfg.engineThreadNum, s.accLoad i + r.len < 2 ^ 64

/-- The calls so far, from the first one on, and the state behind them. -/
inductive Calls (cfg : Config) : List Call → State E W σ → Prop
  | start : Calls cfg [] (State.init cfg)
  | call {history : List Call} {s s' : State E W σ} {r : Request} {tid : Nat} (hs : Calls cfg history s)
      (hr : r.Fits cfg history s) (h : getThreadID cfg s r.key r.len = some (tid, s')) :
      Calls cfg (history ++ [⟨r, tid⟩]) s'

/-- The first push of every key. -/
def firstPushes (history : List Call) : List Call :=
  history.foldl (fun firsts c => if 0 < c.len ∧ ∀ d ∈ firsts, d.key ≠ c.key then firsts ++ [c] else firsts) []

/-- The sum of the first pushes to a thread. -/
def loadOf (history : List Call) (tid : Nat) : Nat :=
  (((firstPushes history).filter fun c => c.tid = tid).map fun c => c.len).sum

/-- The largest first push. -/
def maxLen (history : List Call) : Nat := (firstPushes history).foldl (fun m c => max m c.len) 0

/-! ## The least load -/

theorem minLoad_spec (accLoad : Nat → Nat) (t : Nat) :
    (∀ j < t, (minLoad accLoad t).2 ≤ accLoad j) ∧
    match (minLoad accLoad t).1 with
    | none => (minLoad accLoad t).2 = 2 ^ 64 - 1
    | some i => i < t ∧ accLoad i = (minLoad accLoad t).2 := by
  induction t with
  | zero => exact ⟨fun j hj => absurd hj (Nat.not_lt_zero j), rfl⟩
  | succ t ih =>
    obtain ⟨hle, hmin⟩ := ih
    unfold minLoad
    simp only
    split
    · next hlt =>
      refine ⟨?_, Nat.lt_succ_self t, rfl⟩
      intro j hj
      rcases Nat.lt_succ_iff_lt_or_eq.mp hj with hj | rfl
      · exact hlt.le.trans (hle j hj)
      · exact Nat.le_refl _
    · next hge =>
      refine ⟨?_, ?_⟩
      · intro j hj
        rcases Nat.lt_succ_iff_lt_or_eq.mp hj with hj | rfl
        · exact hle j hj
        · exact Nat.not_lt.mp hge
      · cases hfound : (minLoad accLoad t).1 with
        | none =>
          rw [hfound] at hmin
          exact hmin
        | some i =>
          rw [hfound] at hmin
          exact ⟨hmin.1.trans (Nat.lt_succ_self t), hmin.2⟩

theorem minLoad_some {accLoad : Nat → Nat} {t i : Nat} (h : (minLoad accLoad t).1 = some i) :
    i < t ∧ ∀ j < t, accLoad i ≤ accLoad j := by
  obtain ⟨hle, hmin⟩ := minLoad_spec accLoad t
  rw [h] at hmin
  refine ⟨hmin.1, ?_⟩
  intro j hj
  rw [hmin.2]
  exact hle j hj

/-- If a load has room for more, the scan finds one. -/
theorem minLoad_isSome {accLoad : Nat → Nat} {t i : Nat} (hi : i < t) (h : accLoad i + 1 < 2 ^ 64) :
    ∃ tid, (minLoad accLoad t).1 = some tid := by
  obtain ⟨hle, hmin⟩ := minLoad_spec accLoad t
  cases hfound : (minLoad accLoad t).1 with
  | none =>
    rw [hfound] at hmin
    have := hle i hi
    omega
  | some tid => exact ⟨tid, rfl⟩

/-! ## The greedy step -/

/-- Loads of `t` threads that differ by at most `m`. -/
def Balanced (t m : Nat) (load : Nat → Nat) : Prop := ∀ i < t, ∀ j < t, load i ≤ load j + m

theorem Balanced.add {t m tid : Nat} {load : Nat → Nat} (h : Balanced t m load) (htid : tid < t)
    (hmin : ∀ j < t, load tid ≤ load j) (len : Nat) :
    Balanced t (max m len) (Function.update load tid (load tid + len)) := by
  have hm : m ≤ max m len := Nat.le_max_left m len
  have hlen : len ≤ max m len := Nat.le_max_right m len
  intro i hi j hj
  by_cases hit : i = tid
  · subst hit
    rw [Function.update_self]
    by_cases hjt : j = i
    · rw [hjt, Function.update_self]
      omega
    · rw [Function.update_of_ne hjt]
      have := hmin j hj
      omega
  · rw [Function.update_of_ne hit]
    by_cases hjt : j = tid
    · rw [hjt, Function.update_self]
      have := h i hi tid htid
      omega
    · rw [Function.update_of_ne hjt]
      have := h i hi j hj
      omega

/-! ## First pushes -/

theorem firstPushes_concat (history : List Call) (c : Call) : firstPushes (history ++ [c]) =
    if 0 < c.len ∧ ∀ d ∈ firstPushes history, d.key ≠ c.key then firstPushes history ++ [c]
    else firstPushes history := by
  unfold firstPushes
  rw [List.foldl_append, List.foldl_cons, List.foldl_nil]

theorem firstPushes_old {history : List Call} {c : Call} (h : ∃ d ∈ firstPushes history, d.key = c.key) :
    firstPushes (history ++ [c]) = firstPushes history := by
  obtain ⟨d, hd, hkey⟩ := h
  rw [firstPushes_concat, if_neg fun hnew => hnew.2 d hd hkey]

theorem loadOf_new {history : List Call} {c : Call} (h : firstPushes (history ++ [c]) = firstPushes history ++ [c]) :
    loadOf (history ++ [c]) = Function.update (loadOf history) c.tid (loadOf history c.tid + c.len) := by
  funext tid
  unfold loadOf
  rw [h, List.filter_append, List.map_append, List.sum_append]
  by_cases ht : tid = c.tid
  · rw [ht, Function.update_self]
    simp
  · rw [Function.update_of_ne ht]
    simp [Ne.symm ht]

theorem maxLen_new {history : List Call} {c : Call} (h : firstPushes (history ++ [c]) = firstPushes history ++ [c]) :
    maxLen (history ++ [c]) = max (maxLen history) c.len := by
  unfold maxLen
  rw [h, List.foldl_append, List.foldl_cons, List.foldl_nil]

/-! ## Threads and loads after any number of calls -/

/-- What is known of the state behind the calls of `history`. -/
structure Loads (cfg : Config) (history : List Call) (s : State E W σ) : Prop where
  cached : ∀ c ∈ history, s.hashCache c.key = some c.tid
  tid_lt : ∀ c ∈ history, c.tid < cfg.engineThreadNum
  known : ∀ key tid, s.hashCache key = some tid → ∃ c ∈ firstPushes history, c.key = key
  firsts : ∀ c ∈ firstPushes history, c ∈ history
  accLoad : s.accLoad = loadOf history
  balanced : Balanced cfg.engineThreadNum (maxLen history) s.accLoad

theorem Loads.init (cfg : Config) : Loads cfg [] (State.init cfg : State E W σ) where
  cached := fun c hc => by cases hc
  tid_lt := fun c hc => by cases hc
  known := fun key tid h => by cases h
  firsts := fun c hc => by cases hc
  accLoad := rfl
  balanced := fun i _ j _ => Nat.zero_le _

/-- A call for a key that has a thread changes nothing. -/
theorem Loads.hit {cfg : Config} {history : List Call} {s : State E W σ} (h : Loads cfg history s) {r : Request}
    {tid : Nat} (hr : s.hashCache r.key = some tid) (hlt : tid < cfg.engineThreadNum) :
    Loads cfg (history ++ [⟨r, tid⟩]) s := by
  obtain ⟨d, hd, hkey⟩ := h.known r.key tid hr
  have hfirsts : firstPushes (history ++ [⟨r, tid⟩]) = firstPushes history := firstPushes_old ⟨d, hd, hkey⟩
  refine ⟨?_, ?_, ?_, ?_, ?_, ?_⟩
  · exact List.forall_mem_append.mpr ⟨h.cached, List.forall_mem_singleton.mpr hr⟩
  · exact List.forall_mem_append.mpr ⟨h.tid_lt, List.forall_mem_singleton.mpr hlt⟩
  · rw [hfirsts]
    exact h.known
  · rw [hfirsts]
    exact fun c hc => List.mem_append_left _ (h.firsts c hc)
  · rw [h.accLoad]
    unfold loadOf
    rw [hfirsts]
  · unfold maxLen
    rw [hfirsts]
    exact h.balanced

/-- The first push of a key, to a thread with the least load. -/
theorem Loads.miss {cfg : Config} {history : List Call} {s : State E W σ} (h : Loads cfg history s) {r : Request}
    {tid : Nat} (hr : s.hashCache r.key = none) (hlen : 0 < r.len)
    (hmin : (minLoad s.accLoad cfg.engineThreadNum).1 = some tid)
    (hload : ∃ i < cfg.engineThreadNum, s.accLoad i + r.len < 2 ^ 64) :
    Loads cfg (history ++ [⟨r, tid⟩]) { s with
      accLoad := Function.update s.accLoad tid ((s.accLoad tid + r.len) % 2 ^ 64)
      hashCache := Function.update s.hashCache r.key (some tid) } := by
  obtain ⟨hlt, hle⟩ := minLoad_some hmin
  have hnew : ∀ c ∈ history, c.key ≠ r.key := by
    intro c hc hkey
    have hcached := h.cached c hc
    rw [hkey, hr] at hcached
    cases hcached
  have hfirsts : firstPushes (history ++ [⟨r, tid⟩]) = firstPushes history ++ [⟨r, tid⟩] := by
    rw [firstPushes_concat, if_pos ⟨hlen, fun d hd => hnew d (h.firsts d hd)⟩]
  have hsum : (s.accLoad tid + r.len) % 2 ^ 64 = s.accLoad tid + r.len := by
    obtain ⟨i, hi, hroom⟩ := hload
    have := hle i hi
    exact Nat.mod_eq_of_lt (by omega)
  refine ⟨?_, ?_, ?_, ?_, ?_, ?_⟩
  · refine List.forall_mem_append.mpr ⟨fun c hc => ?_, List.forall_mem_singleton.mpr (Function.update_self _ _ _)⟩
    rw [← h.cached c hc]
    exact Function.update_of_ne (hnew c hc) _ _
  · exact List.forall_mem_append.mpr ⟨h.tid_lt, List.forall_mem_singleton.mpr hlt⟩
  · intro key t ht
    rw [hfirsts]
    by_cases hkey : key = r.key
    · exact ⟨⟨r, tid⟩, List.mem_concat_self, hkey.symm⟩
    · have hold : s.hashCache key = some t := by
        rw [← ht]
        exact (Function.update_of_ne hkey _ _).symm
      obtain ⟨c, hc, hck⟩ := h.known key t hold
      exact ⟨c, List.mem_append_left _ hc, hck⟩
  · rw [hfirsts]
    exact List.forall_mem_append.mpr
      ⟨fun c hc => List.mem_append_left _ (h.firsts c hc), fun c hc => List.mem_append_right _ hc⟩
  · rw [loadOf_new hfirsts, ← h.accLoad, hsum]
  · rw [maxLen_new hfirsts, hsum]
    exact h.balanced.add hlt hle r.len

/-- One call. -/
theorem Loads.call {cfg : Config} {history : List Call} {s s' : State E W σ} (h : Loads cfg history s) {r : Request}
    (hr : r.Fits cfg history s) {tid : Nat} (hget : getThreadID cfg s r.key r.len = some (tid, s')) :
    Loads cfg (history ++ [⟨r, tid⟩]) s' := by
  unfold getThreadID at hget
  split at hget
  · next t ht =>
    cases hget
    obtain ⟨c, hc, hkey⟩ := h.known r.key _ ht
    have htid := h.cached c (h.firsts c hc)
    rw [hkey, ht] at htid
    cases htid
    exact h.hit ht (h.tid_lt c (h.firsts c hc))
  · next hnone =>
    split at hget
    · cases hget
    · next hlen =>
      split at hget
      · cases hget
      · next t hmin =>
        cases hget
        exact h.miss hnone (Nat.pos_of_ne_zero hlen) hmin (hr.load hnone)

theorem loads_of_calls {cfg : Config} {history : List Call} {s : State E W σ} (h : Calls cfg history s) :
    Loads cfg history s := by
  induction h with
  | start => exact .init cfg
  | call _ hr hget ih => exact ih.call hr hget

/-- No check of `GetThreadID` fails. -/
theorem Loads.returns {cfg : Config} {history : List Call} {s : State E W σ} (h : Loads cfg history s) {r : Request}
    (hr : r.Fits cfg history s) : ∃ tid s', getThreadID cfg s r.key r.len = some (tid, s') := by
  unfold getThreadID
  cases hcache : s.hashCache r.key with
  | some tid => exact ⟨tid, s, rfl⟩
  | none =>
    have hlen : r.len ≠ 0 := by
      intro h0
      obtain ⟨c, hc, hkey, -⟩ := hr.pushed h0
      have hcached := h.cached c hc
      rw [hkey, hcache] at hcached
      cases hcached
    obtain ⟨i, hi, hroom⟩ := hr.load hcache
    obtain ⟨tid, hmin⟩ := minLoad_isSome hi (show s.accLoad i + 1 < 2 ^ 64 by omega)
    simp only [hlen, if_false, hmin]
    exact ⟨tid, _, rfl⟩

/-- **Loads.** After any calls: the next one returns; a key has one thread; the load of a thread is
the sum of the first pushes to it; and two loads differ by no more than the largest first push. -/
theorem thread_loads {cfg : Config} {history : List Call} {s : State E W σ} (h : Calls cfg history s) :
    (∀ r : Request, r.Fits cfg history s → ∃ tid s', getThreadID cfg s r.key r.len = some (tid, s')) ∧
    (∀ c ∈ history, ∀ d ∈ history, c.key = d.key → c.tid = d.tid) ∧
    (∀ c ∈ history, c.tid < cfg.engineThreadNum) ∧
    (∀ tid < cfg.engineThreadNum, s.accLoad tid = loadOf history tid) ∧
    ∀ i < cfg.engineThreadNum, ∀ j < cfg.engineThreadNum, s.accLoad i - s.accLoad j ≤ maxLen history := by
  have hloads := loads_of_calls h
  refine ⟨fun r hr => hloads.returns hr, ?_, hloads.tid_lt, ?_, ?_⟩
  · intro c hc d hd hkey
    have hcached := hloads.cached c hc
    rw [hkey, hloads.cached d hd] at hcached
    exact (Option.some.inj hcached).symm
  · intro tid _
    rw [hloads.accLoad]
  · intro i hi j hj
    have := hloads.balanced i hi j hj
    omega

/-- Two threads: pushes of 5 and 3 bytes, and a pull of the first key. -/
theorem thread_loads_two : ∃ s : State Nat Nat Unit,
    Calls ⟨2, 2, true, false, false⟩ [⟨⟨7, 5⟩, 0⟩, ⟨⟨8, 3⟩, 1⟩, ⟨⟨7, 0⟩, 0⟩] s ∧ s.accLoad 0 = 5 ∧
      s.accLoad 0 - s.accLoad 1 ≤ 5 := by
  have h1 : Calls (E := Nat) (W := Nat) (σ := Unit) ⟨2, 2, true, false, false⟩ [⟨⟨7, 5⟩, 0⟩] _ :=
    .call .start ⟨by decide, fun _ => ⟨0, by decide, by decide⟩⟩ rfl
  have h2 := Calls.call (r := ⟨8, 3⟩) h1 ⟨by decide, fun _ => ⟨1, by decide, by decide⟩⟩ rfl
  have h3 := Calls.call (r := ⟨7, 0⟩) h2 ⟨fun _ => ⟨_, List.mem_cons_self, rfl, by decide⟩, by decide⟩ rfl
  obtain ⟨-, -, -, hload, hdiff⟩ := thread_loads h3
  exact ⟨_, h3, hload 0 (by decide), hdiff 0 (by decide) 1 (by decide)⟩

end Inca.L4.ThreadLoad
